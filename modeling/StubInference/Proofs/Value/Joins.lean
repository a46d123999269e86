import StubInference.Proofs.Value.Gathering

/-!
# The laws of joins

Values are joined into one value and variables into one variable, in both cases by gathering what
they hold in the order of first occurrence. What a join gives depends neither on how the operands are
put into groups nor on repeated operands, and it has the form that joins expect of their operands: a
union holds two or more distinct members and no union, a variable holds some value and none twice.

Grouping needs of the equality of values that it is transitive, which it always is. Repetition needs
that a value equals itself, which it does because tables of keyword arguments bind every name once.

## Main definitions

* `Value.Reduced` — values that are no unions, or unions of two or more distinct members
* `Value.IsJoinOf` — what joining some values has to give
* `Variable.Irredundant` — variables that hold some value and none twice

## Main results

* `Value.isJoinOf_join`, `Value.join_join`, `Value.join_replicate` — joins of values
* `Variable.irredundant_merge`, `Variable.Irredundant.mergeWith` — joined variables are irredundant
* `Variable.mergeWith_assoc`, `Variable.merge_merge`, `Variable.merge_replicate` — joins of variables
* `join_merge_laws` — all laws together
-/

namespace StubInference

namespace Value

/-! ## Reduced values -/

/-- A value that is no union, or a union of two or more distinct members, none of which is a union. -/
def Reduced : Value → Prop
  | .union members =>
    2 ≤ members.length ∧ (members.Pairwise fun a b => a.same b = false) ∧
      ∀ b ∈ members, b.kind ≠ .union
  | _ => True

theorem members_of_kind {a : Value} (plain : a.kind ≠ .union) : a.members = [a] := by
  cases a with
  | union => exact absurd rfl plain
  | _ => rfl

theorem reduced_of_kind {a : Value} (plain : a.kind ≠ .union) : a.Reduced := by
  cases a with
  | union => exact absurd rfl plain
  | _ => exact trivial

namespace Reduced

variable {a : Value}

theorem members_ne_nil (h : a.Reduced) : a.members ≠ [] := by
  cases a with
  | union members => exact List.ne_nil_of_length_pos (Nat.lt_of_lt_of_le Nat.zero_lt_two h.1)
  | _ => exact List.cons_ne_nil _ _

theorem distinct (h : a.Reduced) : a.members.Pairwise fun a b => a.same b = false := by
  cases a with
  | union members => exact h.2.1
  | _ => exact List.pairwise_singleton _ _

theorem plain (h : a.Reduced) : ∀ b ∈ a.members, b.kind ≠ .union := by
  cases a with
  | union members => exact h.2.2
  | _ => simp [members, kind]

/-- The members of a reduced value make up the value. -/
theorem ofMembers_members (h : a.Reduced) : ofMembers a.members = a := by
  cases a with
  | union members =>
    obtain ⟨several, -, -⟩ := h
    rcases members with _ | ⟨b, _ | ⟨c, rest⟩⟩
    · cases several
    · simp at several
    · rfl
  | _ => rfl

end Reduced

/-- Members that are no unions are those of the value that they make up. -/
theorem members_ofMembers {members : List Value} (some : members ≠ [])
    (plain : ∀ b ∈ members, b.kind ≠ .union) : (ofMembers members).members = members := by
  rcases members with _ | ⟨b, _ | ⟨c, rest⟩⟩
  · exact absurd rfl some
  · exact members_of_kind (plain b (by simp))
  · rfl

/-- Distinct members that are no unions make up a reduced value. -/
theorem reduced_ofMembers {members : List Value}
    (distinct : members.Pairwise fun a b => a.same b = false)
    (plain : ∀ b ∈ members, b.kind ≠ .union) : (ofMembers members).Reduced := by
  rcases members with _ | ⟨b, _ | ⟨c, rest⟩⟩
  · exact trivial
  · exact reduced_of_kind (plain b (by simp))
  · exact ⟨by simp, distinct, plain⟩

/-! ## Joins of values -/

/-- What joining some values has to give. -/
structure IsJoinOf (joined : Value) (values : List Value) : Prop where
  /-- The members are those of the values, in the order in which they first occur. -/
  members : joined.members = firstOccurrences same (values.flatMap Value.members)
  /-- They are all there. -/
  represented : ∀ a ∈ values, ∀ b ∈ a.members, ∃ c ∈ joined.members, c = b ∨ c.same b = true
  /-- None is there twice. -/
  distinct : joined.members.Pairwise fun a b => a.same b = false
  /-- The value is a union only of two or more of them, and none of them is a union. -/
  reduced : joined.Reduced

theorem transitive_same ⦃a b c : Value⦄ (hab : a.same b = true) (hbc : b.same c = true) :
    a.same c = true := same_trans hab hbc

theorem join_eq (values : List Value) :
    join values = ofMembers (gatherBy same [] (values.flatMap members)) := by
  rw [join, addNew_eq_gatherBy]

section Joined

variable {values : List Value} (reduced : ∀ a ∈ values, a.Reduced)
include reduced

theorem plain_gathered : ∀ b ∈ gatherBy same [] (values.flatMap members), b.kind ≠ .union := by
  intro b hb
  obtain ⟨a, ha, hab⟩ := List.mem_flatMap.mp (mem_of_mem_gatherBy_nil hb)
  exact (reduced a ha).plain b hab

theorem reduced_join : (join values).Reduced := by
  rw [join_eq]
  exact reduced_ofMembers (pairwise_gatherBy .nil _) (plain_gathered reduced)

theorem members_join (some : values ≠ []) :
    (join values).members = gatherBy same [] (values.flatMap members) := by
  rw [join_eq]
  refine members_ofMembers (gatherBy_ne_nil ?_) (plain_gathered reduced)
  obtain ⟨a, rest, rfl⟩ := List.exists_cons_of_ne_nil some
  rw [List.flatMap_cons]
  exact List.append_ne_nil_of_left_ne_nil (reduced a (by simp)).members_ne_nil _

theorem isJoinOf_join (some : values ≠ []) : (join values).IsJoinOf values where
  members := by rw [members_join reduced some, gatherBy_nil transitive_same]
  represented := by
    intro a ha b hb
    rw [members_join reduced some]
    exact exists_mem_gatherBy [] (List.mem_flatMap.mpr ⟨a, ha, hb⟩)
  distinct := (reduced_join reduced).distinct
  reduced := reduced_join reduced

end Joined

/-- Values can be joined in groups. -/
theorem join_join {groups : List (List Value)}
    (reduced : ∀ group ∈ groups, group ≠ [] ∧ ∀ a ∈ group, a.Reduced) :
    join (groups.map join) = join groups.flatten := by
  -- a join brings into another one what was gathered for it
  have members : (groups.map join).flatMap members =
      groups.flatMap fun group => gatherBy same [] (group.flatMap members) := by
    rw [List.flatMap_map]
    exact List.flatMap_congr fun group h => members_join (reduced group h).2 (reduced group h).1
  rw [join_eq, join_eq, members, gatherBy_flatMap transitive_same, List.flatten_eq_flatMap,
    List.flatMap_assoc]
  rfl

/-- Joining a value with itself gives it back. -/
theorem join_replicate {a : Value} (reduced : a.Reduced) (keyed : a.Keyed) (n : Nat) :
    join (List.replicate (n + 1) a) = a := by
  have reflexive : ∀ b ∈ a.members, b.same b = true := by
    cases a with
    | union members => exact fun b hb => (keyed.inner b hb).same_refl
    | _ => simpa [members] using keyed.same_refl
  -- the first copy brings all members, and the others find them there
  have known : ∀ b ∈ (List.replicate n a).flatMap members, a.members.any (same · b) = true := by
    intro b hb
    obtain ⟨c, hc, hbc⟩ := List.mem_flatMap.mp hb
    rw [List.eq_of_mem_replicate hc] at hbc
    exact List.any_eq_true.mpr ⟨b, hbc, reflexive b hbc⟩
  have first : gatherBy same [] a.members = a.members := gatherBy_of_pairwise reduced.distinct
  rw [join_eq, List.replicate_succ, List.flatMap_cons, gatherBy_append, first,
    gatherBy_of_known known, reduced.ofMembers_members]

end Value

namespace Variable

/-! ## Joins of variables -/

/-- Whether two bindings have the same value, wherever they were made. -/
def sameValue (b c : Binding Value) : Bool := b.value.same c.value

theorem sameValue_trans ⦃b c d : Binding Value⦄ (h : sameValue b c = true)
    (h' : sameValue c d = true) : sameValue b d = true := Value.same_trans h h'

/-- A variable that holds some value, and none twice. -/
structure Irredundant (v : Variable) : Prop where
  inhabited : v.bindings ≠ []
  distinct : v.bindings.Pairwise fun b c => b.value.same c.value = false

variable {u v w : Variable} {vars : List Variable}

theorem bindings_mergeWith (v w : Variable) :
    (v.mergeWith w).bindings = gatherBy sameValue v.bindings w.bindings := rfl

theorem eq_of_bindings (h : v.bindings = w.bindings) : v = w := by
  cases v
  cases w
  exact congrArg ofBindings h

theorem bindings_ofDistinct {known : List (Binding Value)} (some : known ≠ []) :
    (ofDistinct known).bindings = known := by
  cases known with
  | nil => exact absurd rfl some
  | cons => rfl

theorem merge_eq (vars : List Variable) :
    merge vars = ofDistinct (gatherBy sameValue [] (vars.flatMap bindings)) := rfl

theorem ofValues_eq (values : List Value) :
    ofValues values = ofDistinct (gatherBy sameValue [] (values.map (⟨·, .synthetic⟩))) := by
  rw [gatherBy, List.foldl_map]
  rfl

theorem irredundant_ofValueAt (a : Value) (origin : Origin) : (ofValueAt a origin).Irredundant where
  inhabited := List.cons_ne_nil _ _
  distinct := List.pairwise_singleton _ _

/-- A variable with distinct bindings is irredundant, even if there are none. -/
theorem irredundant_ofDistinct {known : List (Binding Value)}
    (distinct : known.Pairwise fun b c => b.value.same c.value = false) :
    (ofDistinct known).Irredundant := by
  cases known with
  | nil => exact irredundant_ofValueAt .any .synthetic
  | cons => exact ⟨List.cons_ne_nil _ _, distinct⟩

theorem irredundant_ofValues (values : List Value) : (ofValues values).Irredundant := by
  rw [ofValues_eq]
  exact irredundant_ofDistinct (@pairwise_gatherBy _ sameValue [] .nil _)

theorem irredundant_merge (vars : List Variable) : (merge vars).Irredundant := by
  rw [merge_eq]
  exact irredundant_ofDistinct (@pairwise_gatherBy _ sameValue [] .nil _)

theorem Irredundant.mergeWith (hv : v.Irredundant) (w : Variable) :
    (v.mergeWith w).Irredundant where
  inhabited := by
    obtain ⟨extra, appended, -⟩ := gatherBy_eq_append sameValue v.bindings w.bindings
    rw [bindings_mergeWith, appended]
    exact List.append_ne_nil_of_left_ne_nil hv.inhabited _
  distinct := @pairwise_gatherBy _ sameValue _ hv.distinct _

theorem mergeWith_assoc (u v w : Variable) :
    (u.mergeWith v).mergeWith w = u.mergeWith (v.mergeWith w) := by
  apply eq_of_bindings
  simp only [bindings_mergeWith]
  rw [gatherBy_gatherBy sameValue_trans, gatherBy_append]

/-- A variable that has all bindings of another one stays as it is. -/
theorem mergeWith_self (keyed : v.Keyed) : v.mergeWith v = v := by
  apply eq_of_bindings
  rw [bindings_mergeWith]
  refine gatherBy_of_known fun b hb => List.any_eq_true.mpr ⟨b, hb, ?_⟩
  exact (keyed.values b.value (List.mem_map_of_mem hb)).same_refl

/-- Joining several variables is joining them to the first one, one after the other. -/
theorem merge_cons (hv : v.Irredundant) (rest : List Variable) :
    merge (v :: rest) = rest.foldl Variable.mergeWith v := by
  have first : gatherBy sameValue [] v.bindings = v.bindings := gatherBy_of_pairwise hv.distinct
  -- joined one after the other, the first variable is where gathering starts
  have later : (rest.foldl Variable.mergeWith v).bindings =
      gatherBy sameValue v.bindings (rest.flatMap bindings) := by
    clear hv first
    induction rest generalizing v with
    | nil => rfl
    | cons w rest ih =>
      rw [List.foldl_cons, ih, List.flatMap_cons, gatherBy_append, bindings_mergeWith]
  rw [merge_eq, List.flatMap_cons, gatherBy_append, first, ← later]
  apply eq_of_bindings
  apply bindings_ofDistinct
  obtain ⟨extra, appended, -⟩ := gatherBy_eq_append sameValue v.bindings (rest.flatMap bindings)
  rw [later, appended]
  exact List.append_ne_nil_of_left_ne_nil hv.inhabited _

theorem bindings_merge (some : vars ≠ []) (irredundant : ∀ v ∈ vars, v.Irredundant) :
    (merge vars).bindings = gatherBy sameValue [] (vars.flatMap bindings) := by
  rw [merge_eq]
  apply bindings_ofDistinct
  obtain ⟨v, rest, rfl⟩ := List.exists_cons_of_ne_nil some
  rw [List.flatMap_cons]
  exact gatherBy_ne_nil (List.append_ne_nil_of_left_ne_nil (irredundant v (by simp)).inhabited _)

/-- Variables can be joined in groups. -/
theorem merge_merge {groups : List (List Variable)}
    (irredundant : ∀ group ∈ groups, group ≠ [] ∧ ∀ v ∈ group, v.Irredundant) :
    merge (groups.map merge) = merge groups.flatten := by
  have held : (groups.map merge).flatMap bindings =
      groups.flatMap fun group => gatherBy sameValue [] (group.flatMap bindings) := by
    rw [List.flatMap_map]
    exact List.flatMap_congr fun group h =>
      bindings_merge (irredundant group h).1 (irredundant group h).2
  rw [merge_eq, merge_eq, held, gatherBy_flatMap sameValue_trans, List.flatten_eq_flatMap,
    List.flatMap_assoc]
  rfl

/-- Joining a variable with itself gives it back. -/
theorem merge_replicate (hv : v.Irredundant) (keyed : v.Keyed) (n : Nat) :
    merge (List.replicate (n + 1) v) = v := by
  rw [List.replicate_succ, merge_cons hv]
  induction n with
  | zero => rfl
  | succ n ih => rw [List.replicate_succ, List.foldl_cons, mergeWith_self keyed, ih]

end Variable

/-! ## All laws -/

/-- Joining no value gives a value that nothing is known about, joining reduced values gives just their
members, and neither groups nor repetition change the result. Whatever variables are made of or joined
to is irredundant, and joins of variables are associative and change nothing when repeated. -/
theorem join_merge_laws :
    (Value.join [] = .any ∧
      (∀ values : List Value, values ≠ [] → (∀ a ∈ values, a.Reduced) →
        (Value.join values).IsJoinOf values) ∧
      (∀ groups : List (List Value), (∀ group ∈ groups, group ≠ [] ∧ ∀ a ∈ group, a.Reduced) →
        Value.join (groups.map Value.join) = Value.join groups.flatten) ∧
      ∀ a : Value, a.Reduced → a.Keyed → ∀ n, Value.join (List.replicate (n + 1) a) = a) ∧
    ((∀ a origin, (Variable.ofValueAt a origin).Irredundant) ∧
      (∀ values, (Variable.ofValues values).Irredundant) ∧
      (∀ vars, (Variable.merge vars).Irredundant) ∧
      ∀ v w : Variable, v.Irredundant → (v.mergeWith w).Irredundant) ∧
    (∀ u v w : Variable, (u.mergeWith v).mergeWith w = u.mergeWith (v.mergeWith w)) ∧
    (∀ (v : Variable) (rest : List Variable), v.Irredundant →
      Variable.merge (v :: rest) = rest.foldl Variable.mergeWith v) ∧
    (∀ groups : List (List Variable),
      (∀ group ∈ groups, group ≠ [] ∧ ∀ v ∈ group, v.Irredundant) →
        Variable.merge (groups.map Variable.merge) = Variable.merge groups.flatten) ∧
    ∀ v : Variable, v.Irredundant → v.Keyed →
      v.mergeWith v = v ∧ ∀ n, Variable.merge (List.replicate (n + 1) v) = v := by
  refine ⟨⟨rfl, ?_, ?_, ?_⟩, ⟨?_, ?_, ?_, ?_⟩, ?_, ?_, ?_, ?_⟩
  · exact fun values some reduced => Value.isJoinOf_join reduced some
  · exact fun groups reduced => Value.join_join reduced
  · exact fun a reduced keyed => Value.join_replicate reduced keyed
  · exact Variable.irredundant_ofValueAt
  · exact Variable.irredundant_ofValues
  · exact Variable.irredundant_merge
  · exact fun v w hv => hv.mergeWith w
  · exact Variable.mergeWith_assoc
  · exact fun v rest hv => Variable.merge_cons hv rest
  · exact fun groups irredundant => Variable.merge_merge irredundant
  · exact fun v hv keyed => ⟨Variable.mergeWith_self keyed, Variable.merge_replicate hv keyed⟩

/-- A union is joined with a member of its own and with another value, and a variable with itself. -/
theorem join_merge_laws_of_union :
    let one := Value.literal (.int 1)
    let text := Value.literal (.str "s")
    let both := Value.union [one, text]
    let v := Variable.ofValues [one, text]
    (Value.join [both, one, .any]).IsJoinOf [both, one, .any] ∧
      Value.join [Value.join [both, one], Value.join [.any]] = Value.join [both, one, .any] ∧
      Value.join [both, both] = both ∧ v.mergeWith v = v ∧
      Variable.merge [Variable.merge [v, one.var], Variable.merge [text.var]] =
        Variable.merge [v, one.var, text.var] := by
  intro one text both v
  obtain ⟨⟨-, joins, groups, again⟩, ⟨ofValueAt, ofValues, -⟩, -, -, mergeGroups, mergeAgain⟩ :=
    join_merge_laws
  have plain (a : Value) (h : a.kind ≠ .union) : a.Reduced := Value.reduced_of_kind h
  have union : both.Reduced := ⟨by decide, by decide, by decide⟩
  have keyed (l : Literal) : (Value.literal l).Keyed := .of_plain rfl rfl (by simp)
  have members : ∀ a ∈ [one, text], a.Keyed := by simp [one, text, keyed]
  have reduced : ∀ a ∈ [both, one, .any], a.Reduced := by
    simp [union, plain one (by decide), plain .any (by decide)]
  refine ⟨joins _ (by simp) reduced, groups [[both, one], [.any]] ?_, again both union ?_ 1,
    (mergeAgain v (ofValues _) (.intro members)).1, mergeGroups [[v, one.var], [text.var]] ?_⟩
  · simp [union, plain one (by decide), plain .any (by decide)]
  · exact .intro members (by simp [Value.parts, both]) (by simp [both])
  · simp [ofValues [one, text], ofValueAt, v, Value.var, Variable.ofValue]

end StubInference
