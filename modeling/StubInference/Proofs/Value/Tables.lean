import StubInference.Frame.BlockState
import StubInference.Proofs.Value.Equality

/-!
# Tables of names

Which names a table binds and to what, after another one has been put behind it or it has been made of
a list of names. What every entry of a table has, and every new entry, is what all entries have after
the table has been changed.

## Main definitions

* `NameMap.All` — every entry of a table has a property

## Main results

* `NameMap.ofEntries_of_nodup` — entries of distinct names are a table as they stand
* `NameMap.get?_append`, `NameMap.get?_tabulate`, `NameMap.get?_zip_getElem` — look-ups
* `NameMap.All.insert`, `NameMap.All.erase`, `NameMap.All.upsert`, `NameMap.All.ofEntries` — changes
  of a table
* `NameMap.All.mergeLocals` — joins of tables
-/

namespace StubInference

namespace NameMap

/-! ## Names and look-ups -/

section Names

variable {α : Type} {map other : NameMap α} {name : String} {a : α}

/-- A new name comes last. -/
theorem insert_of_not_mem (new : name ∉ map.names) :
    map.insert name a = map ++ [(name, a)] := by
  induction map with
  | nil => rfl
  | cons entry rest ih =>
    simp only [names, List.map_cons, List.mem_cons, not_or] at new
    rw [NameMap.insert, if_neg (Ne.symm new.1), ih new.2]
    rfl

/-- Entries of distinct names are a table as they stand. -/
theorem ofEntries_of_nodup {entries : List (String × α)} (distinct : (names entries).Nodup) :
    ofEntries entries = entries := by
  -- the table so far is a part of the entries, none of which comes again
  have step (known rest : List (String × α)) (distinct : (names (known ++ rest)).Nodup) :
      rest.foldl (fun map entry => NameMap.insert map entry.1 entry.2) known = known ++ rest := by
    induction rest generalizing known with
    | nil => simp
    | cons entry rest ih =>
      have new : entry.1 ∉ names known := by
        rw [names, List.map_append, List.nodup_append] at distinct
        exact fun old => distinct.2.2 _ old _ (by simp) rfl
      rw [List.foldl_cons, insert_of_not_mem new, ih _ (by simpa using distinct)]
      simp
  exact step [] entries distinct

theorem get?_append : NameMap.get? (map ++ other) name = (map.get? name).or (other.get? name) := by
  induction map with
  | nil => rfl
  | cons entry rest ih =>
    by_cases h : entry.1 = name
    · simp [get?, h]
    · simpa [get?, h] using ih

theorem get?_eq_none_iff : map.get? name = none ↔ name ∉ map.names := by
  induction map with
  | nil => simp [names]
  | cons entry rest ih =>
    by_cases h : entry.1 = name
    · simp [get?, names, h]
    · simpa [get?, names, h, Ne.symm h] using ih

theorem has_iff : map.has name = true ↔ name ∈ map.names := by
  rw [has, Option.isSome_iff_ne_none, ne_eq, get?_eq_none_iff, not_not]

/-- A table that gives every name of a list its value. -/
theorem get?_tabulate {names : List String} {f : String → α} (h : name ∈ names) :
    NameMap.get? (names.map fun n => (n, f n)) name = some (f name) := by
  induction names with
  | nil => cases h
  | cons other rest ih =>
    by_cases same : other = name
    · simp [get?, same]
    · simpa [get?, same] using ih ((List.mem_cons.mp h).resolve_left (Ne.symm same))

theorem names_append : names (map ++ other) = map.names ++ other.names := by
  simp [names]

theorem names_zip (keys : List String) (values : List α) :
    names (keys.zip values) = keys.take values.length := by
  induction keys generalizing values with
  | nil => simp [names]
  | cons key rest ih =>
    cases values with
    | nil => rfl
    | cons v values => simpa [names] using ih values

/-- Values go to distinct names by position. -/
theorem get?_zip_getElem {keys : List String} (distinct : keys.Nodup) (values : List α)
    {i : Nat} (hi : i < keys.length) :
    get? (keys.zip values) keys[i] = values[i]? := by
  cases hv : values[i]? with
  | none =>
    rw [get?_eq_none_iff, names_zip]
    intro h
    obtain ⟨j, hj, same⟩ := List.mem_take_iff_getElem.mp h
    have := distinct.getElem_inj_iff.mp same
    have := List.getElem?_eq_none_iff.mp hv
    omega
  | some v =>
    obtain ⟨hlt, here⟩ := List.getElem?_eq_some_iff.mp hv
    apply get?_of_mem
    · rw [names_zip]
      exact distinct.sublist (List.take_sublist _ _)
    · rw [← here, List.mem_iff_getElem]
      exact ⟨i, by simp; omega, by simp⟩

end Names

/-! ## Entries -/

/-- Every entry of a table has a property. -/
def All {α : Type} (P : α → Prop) (map : NameMap α) : Prop := ∀ entry ∈ map, P entry.2

namespace All

variable {α β : Type} {P : α → Prop} {map : NameMap α} {name : String} {a : α}

theorem nil : All P [] := List.forall_mem_nil _

theorem get? (h : All P map) (ha : map.get? name = some a) : P a := h _ (mem_of_get? ha)

theorem insert (h : All P map) (ha : P a) : All P (map.insert name a) := by
  induction map with
  | nil => exact List.forall_mem_singleton.mpr ha
  | cons entry rest ih =>
    obtain ⟨here, others⟩ := List.forall_mem_cons.mp h
    rw [NameMap.insert]
    split
    · exact List.forall_mem_cons.mpr ⟨ha, others⟩
    · exact List.forall_mem_cons.mpr ⟨here, ih others⟩

theorem erase (h : All P map) : All P (map.erase name) :=
  fun entry he => h entry (List.mem_of_mem_filter he)

theorem upsert {combine : α → α} (h : All P map) (ha : P a) (hcombine : ∀ b, P b → P (combine b)) :
    All P (map.upsert name a combine) := by
  refine h.insert ?_
  cases hb : map.get? name with
  | none => exact ha
  | some b => exact hcombine b (h.get? hb)

theorem ofEntries {entries : List (String × α)} (h : ∀ entry ∈ entries, P entry.2) :
    All P (NameMap.ofEntries entries) :=
  List.foldlRecOn entries _ nil fun _ bound entry hentry => bound.insert (h entry hentry)

theorem mapValues {Q : β → Prop} {f : α → β} (h : All P map) (hf : ∀ a, P a → Q (f a)) :
    All Q (map.mapValues f) := by
  rintro _ hentry
  obtain ⟨entry, hmem, rfl⟩ := List.mem_map.mp hentry
  exact hf _ (h entry hmem)

/-- What joins of variables inherit, joins of tables do. -/
theorem mergeLocals {P : Variable → Prop} {map other : NameMap Variable} (h : All P map)
    (hother : All P other) (hmerge : ∀ v w, P v → P w → P (v.mergeWith w)) :
    All P (BlockState.mergeLocals map other) :=
  List.foldlRecOn other _ h fun _ merged entry hentry =>
    merged.upsert (hother entry hentry) fun v hv => hmerge v _ hv (hother entry hentry)

end All

end NameMap

end StubInference
