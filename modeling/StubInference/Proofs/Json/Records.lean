import StubInference.Json.Record
import StubInference.Proofs.Json.RoundTrip

/-!
# Reading records and lists that were written

What the readers of plain values, lists and records give on the trees that the matching writers
make. Reading also limits how deep arrays and objects are nested, so the nesting of a tree is
defined here.

## Main definitions

* `Json.nesting` — how many arrays and objects of a tree are open at once

## Main results

* `Json.legible_array`, `Json.legible_object`, `Json.nesting_array_le`, `Json.nesting_object_le` —
  both properties by the parts of a tree
* `Json.asList?_map_self` — a list reads back when its items do
* `Json.fields?_object` — all members of a record are found
-/

namespace StubInference.Json

/-! ## Nesting -/

mutual
/-- How many arrays and objects of the tree are open at once. -/
def nesting : Json → Nat
  | .array items => itemNesting items + 1
  | .object members => memberNesting members + 1
  | .null | .bool _ | .number _ | .text _ | .broken => 0

/-- The deepest nesting of some items. -/
def itemNesting : List Json → Nat
  | [] => 0
  | item :: rest => max (nesting item) (itemNesting rest)

/-- The deepest nesting of the values of some members. -/
def memberNesting : List (String × Json) → Nat
  | [] => 0
  | (_, value) :: rest => max (nesting value) (memberNesting rest)
end

theorem itemNesting_le {items : List Json} {depth : Nat} :
    itemNesting items ≤ depth ↔ ∀ item ∈ items, item.nesting ≤ depth := by
  induction items with
  | nil => simp [itemNesting]
  | cons item rest ih => rw [itemNesting, Nat.max_le, ih, List.forall_mem_cons]

theorem memberNesting_le {members : List (String × Json)} {depth : Nat} :
    memberNesting members ≤ depth ↔ ∀ entry ∈ members, entry.2.nesting ≤ depth := by
  induction members with
  | nil => simp [memberNesting]
  | cons entry rest ih => rw [memberNesting, Nat.max_le, ih, List.forall_mem_cons]

@[simp] theorem nesting_array_le {items : List Json} {depth : Nat} :
    (Json.array items).nesting ≤ depth ↔
      0 < depth ∧ ∀ item ∈ items, item.nesting ≤ depth - 1 := by
  rw [nesting, ← itemNesting_le]
  omega

@[simp] theorem nesting_object_le {members : List (String × Json)} {depth : Nat} :
    (Json.object members).nesting ≤ depth ↔
      0 < depth ∧ ∀ entry ∈ members, entry.2.nesting ≤ depth - 1 := by
  rw [nesting, ← memberNesting_le]
  omega

/-! ## Legible trees -/

@[simp] theorem legible_array {items : List Json} :
    (Json.array items).Legible ↔ ∀ item ∈ items, item.Legible := by
  rw [Legible]
  induction items with
  | nil => simp [LegibleItems]
  | cons item rest ih => simp [LegibleItems, ih]

@[simp] theorem legible_object {members : List (String × Json)} :
    (Json.object members).Legible ↔ ∀ entry ∈ members, entry.2.Legible := by
  rw [Legible]
  induction members with
  | nil => simp [LegibleMembers]
  | cons entry rest ih => simp [LegibleMembers, ih]

@[simp] theorem legible_text (value : String) : (Json.text value).Legible := trivial

@[simp] theorem legible_bool (value : Bool) : (Json.bool value).Legible := trivial

@[simp] theorem legible_null : Json.null.Legible := trivial

theorem legible_ofNat {n : Nat} (h : n < twoTo 64) : (Json.ofNat n).Legible := by
  apply Number.readsBack_integer <;> omega

theorem legible_ofInt {value : Int} (least : -(twoTo 63 : Int) ≤ value)
    (most : value < twoTo 63) : (Json.ofInt value).Legible := by
  apply Number.readsBack_integer least
  exact Int.lt_trans most (by decide)

/-! ## Values, lists and records -/

theorem asNat?_ofNat {n bound : Nat} (h : n < bound) : (Json.ofNat n).asNat? bound = some n := by
  simp [asNat?, ofNat, asInt?, h]

/-- A list is read item by item. -/
theorem asList?_map {α β : Type} {read : Json → Option β} {write : α → Json} {result : α → β}
    {values : List α} (h : ∀ value ∈ values, read (write value) = some (result value)) :
    (Json.array (values.map write)).asList? read = some (values.map result) := by
  have all : (values.map write).mapM read = some (values.map result) := by
    induction values with
    | nil => rfl
    | cons value rest ih =>
      obtain ⟨here, there⟩ := List.forall_mem_cons.mp h
      simp [here, ih there]
  simpa [asList?, asItems?] using all

/-- A list reads back when each of its items does. -/
theorem asList?_map_self {α : Type} {read : Json → Option α} {write : α → Json} {values : List α}
    (h : ∀ value ∈ values, read (write value) = some value) :
    (Json.array (values.map write)).asList? read = some values := by
  simpa using asList?_map h

@[simp] theorem asTexts?_ofTexts (texts : List String) : (ofTexts texts).asTexts? = some texts :=
  asList?_map_self fun _ _ => rfl

theorem asOptional?_ofOption {α : Type} {read : Json → Option α} {write : α → Json}
    {value : Option α} (back : ∀ a, value = some a → read (write a) = some a)
    (present : ∀ a, value = some a → write a ≠ .null) :
    (ofOption write value).asOptional? read = some value := by
  cases value with
  | none => rfl
  | some a =>
    rw [ofOption, asOptional?]
    · rw [back a rfl, Option.map_some]
    · exact present a rfl

/-- A record whose members are all those of that name is read whole. -/
theorem fields?_object {names : List String} {members : List (String × Json)}
    (h : members.map (·.1) = names) (distinct : names.Nodup) :
    (Json.object members).fields? names = some members := by
  have known : members.filter (fun entry => names.contains entry.1) = members := by
    rw [List.filter_eq_self]
    intro entry hentry
    simpa [← h] using ⟨entry.2, hentry⟩
  simp only [fields?, known]
  rw [if_pos (h ▸ distinct)]

/-- A guard that holds lets what follows go on. -/
theorem guard_bind {α : Type} {condition : Prop} [Decidable condition] (h : condition)
    (next : Unit → Option α) : (guard condition >>= next) = next () := by
  have passed : (guard condition : Option Unit) = some () := if_pos h
  rw [passed]
  rfl

section Members

variable {α β : Type} {fields : List (String × Json)} {name : String} {tree : Json}
  {read : Json → Option α} {value : α} {next : α → Option β} {result : β}

/-- A required member that is found is read, and reading goes on with its value. -/
theorem required?_bind (found : fields.find? (·.1 == name) = some (name, tree))
    (back : read tree = some value) (rest : next value = some result) :
    required? fields name read >>= next = some result := by
  rw [required?, found, Option.bind_some, back]
  exact rest

/-- An optional member that is found is read, whatever stood for it otherwise. -/
theorem optional?_bind {default : α} (found : fields.find? (·.1 == name) = some (name, tree))
    (back : read tree = some value) (rest : next value = some result) :
    optional? fields name default read >>= next = some result := by
  simp only [optional?, found, back]
  exact rest

end Members

end StubInference.Json
