/-!
# Name maps

A table from names to values that remembers the order in which names first came in. Every table
whose order an answer can show is one: scopes, members, keyword arguments.

## Main definitions

* `NameMap` — the entries in order
* `NameMap.get?`, `NameMap.insert`, `NameMap.erase` — look up, bind and unbind a name
* `NameMap.ofEntries` — bind entries one after the other
-/

namespace StubInference

/-- A table from names to values in insertion order. -/
abbrev NameMap (α : Type) := List (String × α)

namespace NameMap

variable {α β : Type}

/-- The value bound to a name. -/
def get? : NameMap α → String → Option α
  | [], _ => none
  | (key, value) :: rest, name => if key = name then some value else get? rest name

/-- Whether a name is bound. -/
def has (map : NameMap α) (name : String) : Bool := (map.get? name).isSome

/-- Bind a name. A name bound before keeps its place, a new one comes last. -/
def insert : NameMap α → String → α → NameMap α
  | [], name, value => [(name, value)]
  | (key, old) :: rest, name, value =>
    if key = name then (key, value) :: rest else (key, old) :: insert rest name value

/-- Unbind a name, keeping the order of the others. -/
def erase (map : NameMap α) (name : String) : NameMap α :=
  map.filter fun entry => entry.1 ≠ name

/-- Bind a name to `combine old` when it is bound to `old`, and to `fresh` otherwise. -/
def upsert (map : NameMap α) (name : String) (fresh : α) (combine : α → α) : NameMap α :=
  map.insert name ((map.get? name).elim fresh combine)

/-- The names in order. -/
def names (map : NameMap α) : List String := map.map (·.1)

/-- The values in order. -/
def values (map : NameMap α) : List α := map.map (·.2)

/-- Apply a function to every value. -/
def mapValues (f : α → β) (map : NameMap α) : NameMap β :=
  map.map fun (name, value) => (name, f value)

/-- Bind entries one after the other, so that the last value of a repeated name wins and its first
place stays. -/
def ofEntries (entries : List (String × α)) : NameMap α :=
  entries.foldl (fun map (name, value) => map.insert name value) []

/-- Whether two maps bind the same names to the same values, in whatever order. -/
def same (eq : α → α → Bool) (a b : NameMap α) : Bool :=
  a.length == b.length &&
    a.all fun (name, value) => (b.get? name).any (eq value)

@[simp] theorem get?_nil (name : String) : get? ([] : NameMap α) name = none := rfl

theorem get?_insert_self (map : NameMap α) (name : String) (value : α) :
    (map.insert name value).get? name = some value := by
  induction map with
  | nil => simp [insert, get?]
  | cons entry rest ih =>
    by_cases h : entry.1 = name <;> simp [insert, get?, h, ih]

theorem get?_insert_of_ne (map : NameMap α) {name other : String} (value : α)
    (h : name ≠ other) : (map.insert name value).get? other = map.get? other := by
  induction map with
  | nil => simp [insert, get?, h]
  | cons entry rest ih =>
    by_cases hk : entry.1 = name
    · simp [insert, get?, hk, h]
    · by_cases ho : entry.1 = other
      · simp [insert, get?, ho, h.symm]
      · simp [insert, get?, hk, ho, ih]

theorem get?_erase_self (map : NameMap α) (name : String) :
    (map.erase name).get? name = none := by
  induction map with
  | nil => rfl
  | cons entry rest ih =>
    by_cases h : entry.1 = name
    · simpa [erase, h] using ih
    · simpa [erase, get?, h] using ih

theorem get?_erase_of_ne (map : NameMap α) {name other : String} (h : name ≠ other) :
    (map.erase name).get? other = map.get? other := by
  induction map with
  | nil => rfl
  | cons entry rest ih =>
    by_cases hk : entry.1 = name
    · simpa [erase, get?, hk, h] using ih
    · by_cases ho : entry.1 = other
      · simp [erase, get?, ho, h.symm]
      · simpa [erase, get?, hk, ho] using ih

theorem names_insert (map : NameMap α) (name : String) (value : α) :
    (map.insert name value).names =
      if name ∈ map.names then map.names else map.names ++ [name] := by
  induction map with
  | nil => simp [insert, names]
  | cons entry rest ih =>
    by_cases h : entry.1 = name
    · simp [insert, names, h]
    · have h' : ¬ name = entry.1 := fun e => h e.symm
      simp only [names] at ih
      by_cases hm : name ∈ rest.map (·.1) <;> simp_all [insert, names]

end NameMap

end StubInference
