import StubInference.Proofs.Frame.Depth
import StubInference.Proofs.Frame.Reaching
import StubInference.Proofs.Value.Joins

/-!
# The laws of joined states

A state is looked at slot by slot: under each local name and at each entry of the stack it holds some
values, and a join holds just the values of the states that went into it. Only stacks of different depth
cannot be joined. The order of the states shows in the order of names and values, and in nothing else.

States are taken as frames have them: no name is bound twice, and no variable holds a value twice or a
table of keyword arguments with a name twice.

## Main definitions

* `BlockState.Slot`, `BlockState.at?`, `BlockState.valuesAt` — what a state holds where
* `BlockState.Tidy` — states as frames have them
* `BlockState.IsJoinOf` — what joining some states has to give
* `BlockState.Alike` — states that hold the same values

## Main results

* `BlockState.at?_merge`, `BlockState.valuesAt_merge`, `BlockState.names_merge` — joins slot by slot
* `BlockState.merge_self`, `BlockState.merge_assoc` — joins of one state with itself, and of three states
* `BlockState.IsJoinOf.merge` — a join is joined with one more state
* `BlockState.IsJoinOf.alike_of_perm` — the order of the states
-/

namespace StubInference

open BlockState FrameStep

/-! ## Tables of names -/

/-- Tables of the same names in the same order that bind them alike are the same. -/
theorem NameMap.eq_of_get? {α : Type} {a b : NameMap α} (names : a.names = b.names)
    (distinct : a.names.Nodup) (h : ∀ name, a.get? name = b.get? name) : a = b := by
  induction a generalizing b with
  | nil => exact (List.map_eq_nil_iff.mp names.symm).symm
  | cons entry a ih =>
    obtain ⟨key, value⟩ := entry
    obtain _ | ⟨⟨key', value'⟩, b⟩ := b
    · cases names
    · obtain ⟨rfl, rest⟩ := List.cons.inj names
      obtain ⟨new, distinct⟩ := List.nodup_cons.mp distinct
      obtain rfl : value = value' := by simpa [get?] using h key
      have others (name : String) : NameMap.get? a name = NameMap.get? b name := by
        by_cases hk : key = name
        · -- the first name is bound nowhere else
          have new' : key ∉ NameMap.names b := fun bound => new (rest.symm ▸ bound)
          rw [← hk, get?_eq_none_iff.mpr new, get?_eq_none_iff.mpr new']
        · simpa [get?, hk] using h name
      rw [ih rest distinct others]

theorem names_mergeLocals (here there : NameMap Variable) :
    (mergeLocals here there).names = gatherBy (· == ·) here.names there.names := by
  induction there generalizing here with
  | nil => rfl
  | cons entry rest ih =>
    change (mergeLocals (here.upsert entry.1 entry.2 (·.mergeWith entry.2)) rest).names = _
    rw [ih, NameMap.upsert, NameMap.names_insert]
    change _ = gatherBy _ _ (entry.1 :: NameMap.names rest)
    rw [gatherBy_cons, List.any_beq', List.contains_eq_mem]
    by_cases known : entry.1 ∈ here.names <;> simp [known]

theorem mergeEntries_assoc (x y z : Option Variable) :
    mergeEntries (mergeEntries x y) z = mergeEntries x (mergeEntries y z) := by
  cases z with
  | none => rfl
  | some w =>
    cases y with
    | none => rfl
    | some v =>
      cases x with
      | none => rfl
      | some u => exact congrArg some (Variable.mergeWith_assoc u v w)

namespace BlockState

/-! ## Slots -/

/-- A local name, or an entry of the stack counted from the top. -/
inductive Slot where
  | name (name : String)
  | entry (depth : Nat)

/-- The variable in a slot. -/
def at? (state : BlockState) : Slot → Option Variable
  | .name name => state.locals.get? name
  | .entry depth => state.stack[depth]?

/-- The values in a slot, none where nothing is bound. -/
def valuesAt (state : BlockState) (slot : Slot) : List Value :=
  (state.at? slot).elim [] Variable.values

/-- A state as frames have them: it binds no name twice, no slot holds a value twice, and no table of
keyword arguments in it has a name twice. -/
structure Tidy (state : BlockState) : Prop where
  names : state.locals.names.Nodup
  distinct : ∀ slot, (state.valuesAt slot).Pairwise fun a b => a.same b = false
  keyed : ∀ slot, ∀ v ∈ state.at? slot, v.Keyed

variable {here there more merged joined state : BlockState} {states : List BlockState} {slot : Slot}

theorem mem_of_at? {v : Variable} (h : state.at? slot = some v) : v ∈ state.locals.values ++ state.stack := by
  cases slot with
  | name name => exact List.mem_append_left _ (List.mem_map_of_mem (f := (·.2)) (NameMap.mem_of_get? h))
  | entry depth => exact List.mem_append_right _ (List.mem_of_getElem? h)

/-- A state is as frames have them if its variables are. -/
theorem Tidy.of_forall (names : state.locals.names.Nodup)
    (vars : ∀ v ∈ state.locals.values ++ state.stack, v.Irredundant ∧ v.Keyed) : state.Tidy where
  names := names
  distinct slot := by
    unfold valuesAt
    cases held : state.at? slot with
    | none => exact .nil
    | some v => exact List.pairwise_map.mpr (vars v (mem_of_at? held)).1.distinct
  keyed _ v hv := (vars v (mem_of_at? hv)).2

/-- States with the same names in the same order and the same variables in all slots are the same. -/
theorem eq_of_at? (names : here.locals.names = there.locals.names) (distinct : here.locals.names.Nodup)
    (h : ∀ slot, here.at? slot = there.at? slot) : here = there := by
  obtain ⟨locals, stack⟩ := here
  obtain ⟨locals', stack'⟩ := there
  obtain rfl : locals = locals' := NameMap.eq_of_get? names distinct fun name => h (.name name)
  obtain rfl : stack = stack' := List.ext_getElem? fun depth => h (.entry depth)
  rfl

/-! ## Joins -/

theorem merge_eq_ok_iff : here.merge there = .ok merged ↔
    here.stack.length = there.stack.length ∧
      merged = ⟨mergeLocals here.locals there.locals,
        List.zipWith Variable.mergeWith here.stack there.stack⟩ := by
  unfold merge
  split
  case isTrue same => simp [same, eq_comm]
  case isFalse differ => simp [differ]

/-- Only states whose stacks have one depth can be joined. -/
theorem exists_error_merge_iff :
    (∃ fault, here.merge there = .error fault) ↔ here.stack.length ≠ there.stack.length := by
  unfold merge
  split
  case isTrue same => simp [same]
  case isFalse differ => simp [differ]

theorem length_merge (h : here.merge there = .ok merged) : merged.stack.length = here.stack.length := by
  obtain ⟨same, rfl⟩ := merge_eq_ok_iff.mp h
  rw [List.length_zipWith, same, Nat.min_self]

theorem names_merge (h : here.merge there = .ok merged) :
    merged.locals.names = gatherBy (· == ·) here.locals.names there.locals.names := by
  rw [locals_merge h, names_mergeLocals]

/-- A joined state has in each slot what both states have there. -/
theorem at?_merge (distinct : there.locals.names.Nodup) (h : here.merge there = .ok merged) (slot : Slot) :
    merged.at? slot = mergeEntries (here.at? slot) (there.at? slot) := by
  obtain ⟨same, rfl⟩ := merge_eq_ok_iff.mp h
  cases slot with
  | name name => exact get?_mergeLocals distinct
  | entry depth =>
    simp only [at?, List.getElem?_zipWith]
    -- an entry is in both stacks or in none
    by_cases within : depth < here.stack.length
    · rw [List.getElem?_eq_getElem within, List.getElem?_eq_getElem (same ▸ within)]
      rfl
    · rw [List.getElem?_eq_none (by omega), List.getElem?_eq_none (by omega)]
      rfl

theorem valuesAt_merge (tidy : there.Tidy) (h : here.merge there = .ok merged) (slot : Slot) :
    merged.valuesAt slot = gatherBy Value.same (here.valuesAt slot) (there.valuesAt slot) := by
  have distinct := tidy.distinct slot
  unfold valuesAt at distinct ⊢
  rw [at?_merge tidy.names h]
  cases held : there.at? slot with
  | none => rfl
  | some w =>
    rw [held] at distinct
    cases here.at? slot with
    | none => exact (gatherBy_nil_of_pairwise distinct).symm
    | some v =>
      change (v.mergeWith w).values = _
      rw [Variable.values_mergeWith, Value.addNew_eq_gatherBy]
      rfl

theorem Tidy.merge (hhere : here.Tidy) (hthere : there.Tidy) (h : here.merge there = .ok merged) :
    merged.Tidy where
  names := by
    rw [locals_merge h]
    exact nodup_mergeLocals hhere.names
  distinct slot := by
    rw [valuesAt_merge hthere h]
    exact pairwise_gatherBy (hhere.distinct slot) _
  keyed slot v hv := by
    rw [at?_merge hthere.names h] at hv
    cases held : there.at? slot with
    | none =>
      rw [held] at hv
      exact hhere.keyed slot v hv
    | some w =>
      rw [held] at hv
      cases known : here.at? slot with
      | none =>
        rw [known] at hv
        cases hv
        exact hthere.keyed slot _ held
      | some u =>
        rw [known] at hv
        cases hv
        -- each value of the joined variable comes from one of the sides
        constructor
        intro a ha
        rcases Variable.mem_or_mem_of_mem_mergeWith ha with ha | ha
        · exact (hhere.keyed slot u known).values a ha
        · exact (hthere.keyed slot w held).values a ha

/-- Joining a state with itself gives it back. -/
theorem merge_self (tidy : here.Tidy) : here.merge here = .ok here := by
  obtain ⟨merged, h, -⟩ := merge_depth (rfl : here.stack.length = here.stack.length)
  have names : merged.locals.names = here.locals.names := by
    rw [names_merge h]
    exact gatherBy_of_subset (List.Subset.refl _)
  have slots (slot : Slot) : merged.at? slot = here.at? slot := by
    rw [at?_merge tidy.names h]
    cases held : here.at? slot with
    | none => rfl
    | some v => exact congrArg some (Variable.mergeWith_self (tidy.keyed slot v held))
  rw [h, eq_of_at? names (names ▸ tidy.names) slots]

theorem merge_of_depth_ne (differ : here.stack.length ≠ there.stack.length) :
    here.merge there = .error (.inconsistent (.stackDepths here.stack.length there.stack.length)) :=
  if_neg differ

theorem merge_merge {left right last : BlockState} (hhere : here.Tidy) (hthere : there.Tidy)
    (hmore : more.Tidy) (hleft : here.merge there = .ok left) (hlast : left.merge more = .ok last)
    (hright : there.merge more = .ok right) : here.merge right = .ok last := by
  have depth : here.stack.length = right.stack.length := by
    rw [length_merge hright, (merge_eq_ok_iff.mp hleft).1]
  obtain ⟨last', hlast', -⟩ := merge_depth depth
  have names : last'.locals.names = last.locals.names := by
    rw [names_merge hlast', names_merge hright, names_merge hlast, names_merge hleft, ← gatherBy_append,
      gatherBy_gatherBy transitive_beq]
  have slots (slot : Slot) : last'.at? slot = last.at? slot := by
    rw [at?_merge (hthere.merge hmore hright).names hlast', at?_merge hmore.names hright,
      at?_merge hmore.names hlast, at?_merge hthere.names hleft, mergeEntries_assoc]
  rw [hlast', eq_of_at? names ((hhere.merge (hthere.merge hmore hright) hlast').names) slots]

/-- Three states can be joined from either side, or from none. -/
theorem merge_assoc (hhere : here.Tidy) (hthere : there.Tidy) (hmore : more.Tidy) :
    (here.merge there >>= (·.merge more)).toOption = (there.merge more >>= here.merge).toOption := by
  -- where two depths differ, one join or the other fails on each side
  by_cases first : here.stack.length = there.stack.length <;>
    by_cases second : there.stack.length = more.stack.length
  · obtain ⟨left, hleft, hl⟩ := merge_depth first
    obtain ⟨right, hright, -⟩ := merge_depth second
    obtain ⟨last, hlast, -⟩ := merge_depth (hl.trans second)
    rw [hleft, hright]
    change (left.merge more).toOption = (here.merge right).toOption
    rw [hlast, merge_merge hhere hthere hmore hleft hlast hright]
  · obtain ⟨left, hleft, hl⟩ := merge_depth first
    rw [hleft, merge_of_depth_ne second]
    change (left.merge more).toOption = none
    rw [merge_of_depth_ne (hl ▸ second)]
    rfl
  · obtain ⟨right, hright, hr⟩ := merge_depth second
    rw [hright, merge_of_depth_ne first]
    change none = (here.merge right).toOption
    rw [merge_of_depth_ne (by rwa [hr, ← second])]
    rfl
  · rw [merge_of_depth_ne first, merge_of_depth_ne second]
    rfl

/-! ## What a join is -/

/-- What joining some states has to give. -/
structure IsJoinOf (joined : BlockState) (states : List BlockState) : Prop where
  /-- All stacks have one depth. -/
  depth : ∀ state ∈ states, state.stack.length = joined.stack.length
  /-- Just the names that some state binds are bound, in the order in which they first occur. -/
  names : joined.locals.names = firstOccurrences (· == ·) (states.flatMap (·.locals.names))
  /-- Each slot holds just the values of the states, in the order in which they first occur. -/
  values : ∀ slot, joined.valuesAt slot = firstOccurrences Value.same (states.flatMap (·.valuesAt slot))

/-- A state is the join of itself alone. -/
theorem Tidy.isJoinOf (tidy : state.Tidy) : state.IsJoinOf [state] where
  depth := List.forall_mem_singleton.mpr rfl
  names := by rw [List.flatMap_singleton, firstOccurrences_of_nodup tidy.names]
  values slot := by
    rw [List.flatMap_singleton, ← gatherBy_nil Value.transitive_same]
    exact (gatherBy_nil_of_pairwise (tidy.distinct slot)).symm

/-- A join is joined with one more state. -/
theorem IsJoinOf.merge (isJoin : joined.IsJoinOf states) (tidy : state.Tidy)
    (h : joined.merge state = .ok merged) : merged.IsJoinOf (states ++ [state]) where
  depth := by
    have same := (merge_eq_ok_iff.mp h).1
    rw [length_merge h]
    exact List.forall_mem_append.mpr ⟨isJoin.depth, List.forall_mem_singleton.mpr same.symm⟩
  names := by
    rw [names_merge h, isJoin.names, List.flatMap_append, List.flatMap_singleton,
      ← gatherBy_nil transitive_beq, ← gatherBy_nil transitive_beq, gatherBy_append]
  values slot := by
    rw [valuesAt_merge tidy h, isJoin.values, List.flatMap_append, List.flatMap_singleton,
      ← gatherBy_nil Value.transitive_same, ← gatherBy_nil Value.transitive_same, gatherBy_append]

/-- States that hold the same values, as variables tell values apart, in whatever order. -/
structure Alike (here there : BlockState) : Prop where
  depth : here.stack.length = there.stack.length
  names : ∀ name, name ∈ here.locals.names ↔ name ∈ there.locals.names
  left : ∀ slot, ∀ a ∈ here.valuesAt slot, ∃ b ∈ there.valuesAt slot, b = a ∨ b.same a = true
  right : ∀ slot, ∀ a ∈ there.valuesAt slot, ∃ b ∈ here.valuesAt slot, b = a ∨ b.same a = true

theorem exists_mem_firstOccurrences_of_perm {as bs : List Value} (perm : as.Perm bs) :
    ∀ a ∈ firstOccurrences Value.same as, ∃ b ∈ firstOccurrences Value.same bs,
      b = a ∨ b.same a = true := by
  intro a ha
  rw [← gatherBy_nil Value.transitive_same] at ha ⊢
  exact exists_mem_gatherBy [] (perm.mem_iff.mp (mem_of_mem_gatherBy_nil ha))

/-- The order of some states makes no difference to what their join holds. -/
theorem IsJoinOf.alike_of_perm {others : List BlockState} {joined' : BlockState}
    (isJoin : joined.IsJoinOf states) (isJoin' : joined'.IsJoinOf others) (some : states ≠ [])
    (perm : states.Perm others) : joined.Alike joined' where
  depth := by
    obtain ⟨first, hfirst⟩ := List.exists_mem_of_ne_nil _ some
    rw [← isJoin.depth first hfirst, isJoin'.depth first (perm.mem_iff.mp hfirst)]
  names name := by
    rw [isJoin.names, isJoin'.names, mem_firstOccurrences_beq, mem_firstOccurrences_beq]
    exact (perm.flatMap_right _).mem_iff
  left slot := by
    rw [isJoin.values, isJoin'.values]
    exact exists_mem_firstOccurrences_of_perm (perm.flatMap_right _)
  right slot := by
    rw [isJoin.values, isJoin'.values]
    exact exists_mem_firstOccurrences_of_perm (perm.symm.flatMap_right _)

end BlockState

end StubInference
