import Mathlib.Order.Monotone.Basic
import StubInference.Builtins
import StubInference.Frame.BlockState
import StubInference.Proofs.Value.Equality

/-!
# Values in another heap

The same objects may stand at other positions in another heap. A renaming says where each object
stands there, and a value is renamed by renaming every object in it. What the analysis computes from
values without looking into the heap commutes with this.

## Main definitions

* `Shift`, `Renaming` — where the objects of one kind, and of every kind, stand in the other heap
* `Shift.Matches` — two tables hold the same objects
* `Value.rename`, `Variable.rename` — values and variables in the other heap

## Main results

* `Value.same_rename` — renaming keeps values apart
* `Value.rename_join`, `Variable.rename_mergeWith`, `Variable.rename_ofValues` — joins
-/

namespace StubInference

/-! ## Positions -/

/-- Where the objects of one kind stand in another heap. -/
structure Shift where
  move : Nat → Nat
  strictMono : StrictMono move
  /-- How many more objects the other heap has. -/
  extra : Nat
  /-- From where on new objects are placed. -/
  first : Nat

namespace Shift

/-- New objects below a position come to stand where the renaming expects them. -/
def Admits (shift : Shift) (size : Nat) : Prop :=
  ∀ n, shift.first ≤ n → n < size → shift.move n = n + shift.extra

variable {shift : Shift} {m n size size' : Nat}

theorem Admits.mono (h : shift.Admits size') (hle : size ≤ size') : shift.Admits size :=
  fun n hfirst hn => h n hfirst (Nat.lt_of_lt_of_le hn hle)

theorem move_inj : shift.move m = shift.move n ↔ m = n := shift.strictMono.injective.eq_iff

/-! ### Tables of objects -/

variable {α : Type} {rename : α → α} {objects objects' : Array α} {object : α}

/-- Two tables hold the same objects, each at its own place and renamed. -/
structure Matches (shift : Shift) (rename : α → α) (objects objects' : Array α) : Prop where
  first : shift.first ≤ objects.size
  size : objects'.size = objects.size + shift.extra
  entry : ∀ n, objects'[shift.move n]? = objects[n]?.map rename

namespace Matches

/-- The next object of both tables is the same one. -/
theorem move_size (h : shift.Matches rename objects objects')
    (admits : shift.Admits (objects.size + 1)) : shift.move objects.size = objects'.size :=
  h.size ▸ admits objects.size h.first (Nat.lt_succ_self _)

theorem push (h : shift.Matches rename objects objects')
    (admits : shift.Admits (objects.size + 1)) (object : α) :
    shift.Matches rename (objects.push object) (objects'.push (rename object)) where
  first := by
    rw [Array.size_push]
    exact Nat.le_succ_of_le h.first
  size := by
    rw [Array.size_push, Array.size_push, h.size]
    omega
  entry n := by
    rw [Array.getElem?_push, Array.getElem?_push, ← h.move_size admits, h.entry]
    simp only [move_inj]
    split <;> rfl

theorem modify (h : shift.Matches rename objects objects') {change change' : α → α}
    (hchange : ∀ a, change' (rename a) = rename (change a)) (place : Nat) :
    shift.Matches rename (objects.modify place change)
      (objects'.modify (shift.move place) change') where
  first := by rw [Array.size_modify]; exact h.first
  size := by rw [Array.size_modify, Array.size_modify, h.size]
  entry n := by
    rw [Array.getElem?_modify, Array.getElem?_modify, h.entry]
    simp only [move_inj]
    split
    · cases objects[n]? with
      | none => rfl
      | some a => exact congrArg some (hchange a)
    · rfl

theorem getD (h : shift.Matches rename objects objects') {fallback : α}
    (hfallback : rename fallback = fallback) (n : Nat) :
    objects'.getD (shift.move n) fallback = rename (objects.getD n fallback) := by
  rw [Array.getD_eq_getD_getElem?, Array.getD_eq_getD_getElem?, h.entry]
  cases objects[n]? with
  | none => exact hfallback.symm
  | some a => rfl

end Matches

end Shift

/-- Where every object stands in another heap. The builtins stand where they always do. -/
structure Renaming where
  classes : Shift
  functions : Shift
  instances : Shift
  frames : Shift
  scopes : Shift
  builtinClasses : ∀ n < Builtins.heap.classes.size, classes.move n = n
  builtinFunctions : ∀ n < Builtins.heap.functions.size, functions.move n = n

namespace Renaming

variable (E : Renaming)

/-- A class in the other heap. -/
def cls (id : ClassId) : ClassId := ⟨E.classes.move id.index⟩

/-- A function in the other heap. -/
def fn (id : FunctionId) : FunctionId := ⟨E.functions.move id.index⟩

/-- An instance in the other heap. -/
def inst (id : InstanceId) : InstanceId := ⟨E.instances.move id.index⟩

/-- A frame in the other heap. -/
def frame (id : FrameId) : FrameId := ⟨E.frames.move id.index⟩

/-- A table of names in the other heap. -/
def scope (id : ScopeId) : ScopeId := ⟨E.scopes.move id.index⟩

variable {E}

@[simp] theorem cls_inj {a b : ClassId} : E.cls a = E.cls b ↔ a = b := by
  cases a
  cases b
  simp [cls, Shift.move_inj]

@[simp] theorem fn_inj {a b : FunctionId} : E.fn a = E.fn b ↔ a = b := by
  cases a
  cases b
  simp [fn, Shift.move_inj]

@[simp] theorem inst_inj {a b : InstanceId} : E.inst a = E.inst b ↔ a = b := by
  cases a
  cases b
  simp [inst, Shift.move_inj]

@[simp] theorem scope_inj {a b : ScopeId} : E.scope a = E.scope b ↔ a = b := by
  cases a
  cases b
  simp [scope, Shift.move_inj]

theorem cls_builtin {n : Nat} (h : n < 21) : E.cls ⟨n⟩ = ⟨n⟩ :=
  congrArg ClassId.mk (E.builtinClasses n h)

theorem fn_builtin {n : Nat} (h : n < 16) : E.fn ⟨n⟩ = ⟨n⟩ :=
  congrArg FunctionId.mk (E.builtinFunctions n h)

/-- A class is a builtin one exactly where its renamed counterpart is that one. -/
theorem cls_eq_builtin {n : Nat} (h : n < 21) {id : ClassId} : E.cls id = ⟨n⟩ ↔ id = ⟨n⟩ := by
  rw [← cls_builtin (E := E) h, cls_inj, cls_builtin h]

end Renaming

/-! ## Values -/

mutual
/-- A value with every object in it renamed. -/
def Value.rename (E : Renaming) : Value → Value
  | .any => .any
  | .null => .null
  | .literal value => .literal value
  | .union members => .union (Value.renameAll E members)
  | .classObject id => .classObject (E.cls id)
  | .function id => .function (E.fn id)
  | .bound receiver id => .bound (receiver.rename E) (E.fn id)
  | .instanceObject id => .instanceObject (E.inst id)
  | .frozen cls => .frozen (E.cls cls)
  | .tuple elements => .tuple (Variable.renameContents E elements)
  | .list elements => .list (Variable.renameContents E elements)
  | .dict entries => .dict (Variable.renameEntries E entries)
  | .argTuple elements => .argTuple (Variable.renameContents E elements)
  | .argDict entries => .argDict (Variable.renameNames E entries)

/-- Several values renamed. -/
def Value.renameAll (E : Renaming) : List Value → List Value
  | [] => []
  | a :: as => a.rename E :: Value.renameAll E as

/-- A variable with every object in it renamed. -/
def Variable.rename (E : Renaming) : Variable → Variable
  | .ofBindings bindings => .ofBindings (Variable.renameBindings E bindings)

/-- Bindings with their values renamed. -/
def Variable.renameBindings (E : Renaming) : List (Binding Value) → List (Binding Value)
  | [] => []
  | ⟨a, origin⟩ :: rest => ⟨a.rename E, origin⟩ :: Variable.renameBindings E rest

/-- Several variables renamed. -/
def Variable.renameAll (E : Renaming) : List Variable → List Variable
  | [] => []
  | v :: vs => v.rename E :: Variable.renameAll E vs

/-- Elements renamed, where they are known. -/
def Variable.renameContents (E : Renaming) : Option (List Variable) → Option (List Variable)
  | none => none
  | some vs => some (Variable.renameAll E vs)

/-- Pairs of keys and values renamed. -/
def Variable.renamePairs (E : Renaming) : List (Variable × Variable) → List (Variable × Variable)
  | [] => []
  | (k, v) :: rest => (k.rename E, v.rename E) :: Variable.renamePairs E rest

/-- Entries renamed, where they are known. -/
def Variable.renameEntries (E : Renaming) :
    Option (List (Variable × Variable)) → Option (List (Variable × Variable))
  | none => none
  | some es => some (Variable.renamePairs E es)

/-- Named variables renamed. -/
def Variable.renameNamed (E : Renaming) : List (String × Variable) → List (String × Variable)
  | [] => []
  | (name, v) :: rest => (name, v.rename E) :: Variable.renameNamed E rest

/-- Keyword arguments renamed, where they are known. -/
def Variable.renameNames (E : Renaming) :
    Option (List (String × Variable)) → Option (List (String × Variable))
  | none => none
  | some es => some (Variable.renameNamed E es)
end

variable {E : Renaming}

/-! ### Lists item by item -/

theorem Value.renameAll_eq (as : List Value) : Value.renameAll E as = as.map (Value.rename E) := by
  induction as with
  | nil => rfl
  | cons a as ih => rw [Value.renameAll, ih, List.map_cons]

namespace Variable

theorem renameBindings_eq (bs : List (Binding Value)) :
    renameBindings E bs = bs.map fun b => ⟨b.value.rename E, b.origin⟩ := by
  induction bs with
  | nil => rfl
  | cons b bs ih => rw [renameBindings, ih, List.map_cons]

theorem renameAll_eq (vs : List Variable) : renameAll E vs = vs.map (rename E) := by
  induction vs with
  | nil => rfl
  | cons v vs ih => rw [renameAll, ih, List.map_cons]

theorem renameContents_eq (vs : Option (List Variable)) :
    renameContents E vs = vs.map (List.map (rename E)) := by
  cases vs with
  | none => rfl
  | some vs => rw [renameContents, renameAll_eq, Option.map_some]

theorem renamePairs_eq (es : List (Variable × Variable)) :
    renamePairs E es = es.map (Prod.map (rename E) (rename E)) := by
  induction es with
  | nil => rfl
  | cons e es ih => rw [renamePairs, ih, List.map_cons, Prod.map]

theorem renameEntries_eq (es : Option (List (Variable × Variable))) :
    renameEntries E es = es.map (List.map (Prod.map (rename E) (rename E))) := by
  cases es with
  | none => rfl
  | some es => rw [renameEntries, renamePairs_eq, Option.map_some]

theorem renameNamed_eq (es : NameMap Variable) : renameNamed E es = es.mapValues (rename E) := by
  induction es with
  | nil => rfl
  | cons e es ih => rw [renameNamed, ih, NameMap.mapValues, NameMap.mapValues, List.map_cons]

theorem length_renameNamed (es : NameMap Variable) :
    (renameNamed E es).length = List.length es := by
  rw [renameNamed_eq, NameMap.mapValues, List.length_map]

theorem renameNames_eq (es : Option (NameMap Variable)) :
    renameNames E es = es.map fun names => names.mapValues (rename E) := by
  cases es with
  | none => rfl
  | some es => rw [renameNames, renameNamed_eq, Option.map_some]

end Variable

/-! ### Tables of names -/

namespace NameMap

variable {α β : Type} {f : α → β} {map : NameMap α} {name : String}

@[simp] theorem get?_mapValues : (map.mapValues f).get? name = (map.get? name).map f := by
  induction map with
  | nil => rfl
  | cons entry rest ih =>
    by_cases h : entry.1 = name
    · simp [mapValues, get?, h]
    · simpa [mapValues, get?, h] using ih

@[simp] theorem has_mapValues : (map.mapValues f).has name = map.has name := by
  simp [has]

@[simp] theorem names_mapValues : (map.mapValues f).names = map.names := by
  simp [names, mapValues, Function.comp_def]

@[simp] theorem values_mapValues : (map.mapValues f).values = map.values.map f := by
  simp [values, mapValues, Function.comp_def]

@[simp] theorem length_mapValues : (map.mapValues f).length = map.length := by simp [mapValues]

theorem mapValues_insert (value : α) :
    (map.insert name value).mapValues f = (map.mapValues f).insert name (f value) := by
  induction map with
  | nil => rfl
  | cons entry rest ih =>
    by_cases h : entry.1 = name
    · simp [mapValues, insert, h]
    · simpa [mapValues, insert, h] using ih

theorem mapValues_erase : (map.erase name).mapValues f = (map.mapValues f).erase name := by
  simp [mapValues, erase, List.filter_map, Function.comp_def]

theorem mapValues_upsert {fresh : α} {combine : α → α} {combine' : β → β}
    (h : ∀ a, f (combine a) = combine' (f a)) :
    (map.upsert name fresh combine).mapValues f =
      (map.mapValues f).upsert name (f fresh) combine' := by
  rw [upsert, upsert, mapValues_insert, get?_mapValues]
  cases map.get? name with
  | none => rfl
  | some a => exact congrArg _ (h a)

theorem mapValues_ofEntries (entries : NameMap α) :
    (ofEntries entries).mapValues f = ofEntries (entries.mapValues f) := by
  have step (map : NameMap α) :
      (entries.foldl (fun map entry => map.insert entry.1 entry.2) map).mapValues f =
        (entries.mapValues f).foldl (fun map entry => map.insert entry.1 entry.2)
          (map.mapValues f) := by
    induction entries generalizing map with
    | nil => rfl
    | cons entry rest ih =>
      rw [List.foldl_cons, ih, mapValues_insert]
      rfl
  exact step []

theorem mapValues_zip (names : List String) (as : List α) :
    mapValues f (names.zip as) = names.zip (as.map f) := by
  simp [mapValues, List.zip_map_right, Prod.map]

end NameMap

/-! ## Equality -/

mutual
private theorem same_rename_value : ∀ a b : Value, (a.rename E).same (b.rename E) = a.same b
  | .any, b | .null, b | .literal _, b | .classObject _, b | .function _, b | .instanceObject _, b
  | .frozen _, b => by cases b <;> simp [Value.rename, Value.same]
  | .union as, b => by cases b <;> simp [Value.rename, Value.same, same_rename_values as]
  | .bound r f, b => by
    cases b <;> simp [Value.rename, Value.same, same_rename_value r, Bool.beq_eq_decide_eq]
  | .tuple as, b | .list as, b | .argTuple as, b => by
    cases b <;> simp [Value.rename, Value.same, same_rename_contents as]
  | .dict es, b => by cases b <;> simp [Value.rename, Value.same, same_rename_entries es]
  | .argDict es, b => by cases b <;> simp [Value.rename, Value.same, same_rename_names es]

private theorem same_rename_values : ∀ as bs : List Value,
    Value.sameAll (Value.renameAll E as) (Value.renameAll E bs) = Value.sameAll as bs
  | [], bs => by cases bs <;> rfl
  | a :: as, bs => by
    cases bs <;> simp [Value.renameAll, Value.sameAll, same_rename_value a, same_rename_values as]

private theorem same_rename_variable : ∀ v w : Variable, (v.rename E).same (w.rename E) = v.same w
  | .ofBindings as, .ofBindings bs => same_rename_bindings as bs

private theorem same_rename_bindings : ∀ as bs : List (Binding Value),
    Variable.sameBindings (Variable.renameBindings E as) (Variable.renameBindings E bs) =
      Variable.sameBindings as bs
  | [], bs => by cases bs <;> rfl
  | ⟨a, _⟩ :: as, bs => by
    cases bs <;>
      simp [Variable.renameBindings, Variable.sameBindings, same_rename_value a,
        same_rename_bindings as]

private theorem same_rename_variables : ∀ vs ws : List Variable,
    Variable.sameAll (Variable.renameAll E vs) (Variable.renameAll E ws) = Variable.sameAll vs ws
  | [], ws => by cases ws <;> rfl
  | v :: vs, ws => by
    cases ws <;>
      simp [Variable.renameAll, Variable.sameAll, same_rename_variable v, same_rename_variables vs]

private theorem same_rename_contents : ∀ vs ws : Option (List Variable),
    Variable.sameContents (Variable.renameContents E vs) (Variable.renameContents E ws) =
      Variable.sameContents vs ws
  | none, ws => by cases ws <;> rfl
  | some vs, ws => by
    cases ws <;>
      simp [Variable.renameContents, Variable.sameContents, same_rename_variables vs]

private theorem same_rename_pairs : ∀ es fs : List (Variable × Variable),
    Variable.samePairs (Variable.renamePairs E es) (Variable.renamePairs E fs) =
      Variable.samePairs es fs
  | [], fs => by cases fs <;> rfl
  | (k, v) :: es, fs => by
    cases fs <;>
      simp [Variable.renamePairs, Variable.samePairs, same_rename_variable k,
        same_rename_variable v, same_rename_pairs es]

private theorem same_rename_entries : ∀ es fs : Option (List (Variable × Variable)),
    Variable.sameEntries (Variable.renameEntries E es) (Variable.renameEntries E fs) =
      Variable.sameEntries es fs
  | none, fs => by cases fs <;> rfl
  | some es, fs => by
    cases fs <;> simp [Variable.renameEntries, Variable.sameEntries, same_rename_pairs es]

private theorem same_rename_named : ∀ (es : List (String × Variable)) (fs : NameMap Variable),
    Variable.namesWithin (Variable.renameNamed E es) (Variable.renameNamed E fs) =
      Variable.namesWithin es fs
  | [], _ => rfl
  | (name, v) :: es, fs => by
    have rest := same_rename_named es fs
    rw [Variable.renameNamed_eq fs] at rest ⊢
    cases h : fs.get? name <;>
      simp [Variable.renameNamed, Variable.namesWithin, h, same_rename_variable v, rest]

private theorem same_rename_names : ∀ es fs : Option (List (String × Variable)),
    Variable.sameNames (Variable.renameNames E es) (Variable.renameNames E fs) =
      Variable.sameNames es fs
  | none, fs => by cases fs <;> rfl
  | some es, fs => by
    cases fs <;>
      simp [Variable.renameNames, Variable.sameNames, same_rename_named es,
        Variable.length_renameNamed]
end

/-- Renaming keeps values apart, and makes none of two that are not the same. -/
@[simp] theorem Value.same_rename (a b : Value) : (a.rename E).same (b.rename E) = a.same b :=
  same_rename_value a b

@[simp] theorem Value.beq_rename (a b : Value) : (a.rename E == b.rename E) = (a == b) :=
  same_rename_value a b

/-! ## Joins of values -/

attribute [simp] Value.rename Value.renameAll_eq Variable.renameContents_eq
  Variable.renameEntries_eq Variable.renameNames_eq

namespace Value

@[simp] theorem kind_rename (a : Value) : (a.rename E).kind = a.kind := by
  cases a <;> rfl

@[simp] theorem typeName_rename (a : Value) : (a.rename E).typeName = a.typeName := by
  cases a <;> rfl

@[simp] theorem asClass?_rename (a : Value) : (a.rename E).asClass? = a.asClass?.map E.cls := by
  cases a <;> rfl

@[simp] theorem asFunction?_rename (a : Value) :
    (a.rename E).asFunction? = a.asFunction?.map E.fn := by
  cases a <;> rfl

theorem members_rename (a : Value) : (a.rename E).members = a.members.map (rename E) := by
  cases a <;> simp [members]

theorem rename_addNew (known values : List Value) :
    (addNew known values).map (rename E) = addNew (known.map (rename E)) (values.map (rename E)) := by
  induction values generalizing known with
  | nil => rfl
  | cons a rest ih =>
    rw [addNew, ih, List.map_cons, addNew]
    simp only [List.any_map, Function.comp_def, beq_rename]
    split <;> simp

theorem rename_join (values : List Value) :
    (join values).rename E = join (values.map (rename E)) := by
  have brought : (values.map (rename E)).flatMap members =
      (values.flatMap members).map (rename E) := by
    simp [List.flatMap_map, List.map_flatMap, members_rename]
  rw [join, join, brought, ← List.map_nil (f := rename E), ← rename_addNew, List.map_nil]
  rcases addNew [] (values.flatMap members) with _ | ⟨a, _ | ⟨b, rest⟩⟩ <;> simp [ofMembers]

end Value

/-! ## Joins of variables -/

namespace Variable

@[simp] theorem bindings_rename (v : Variable) :
    (v.rename E).bindings = v.bindings.map fun b => ⟨b.value.rename E, b.origin⟩ := by
  cases v with | ofBindings bs =>
  exact renameBindings_eq bs

@[simp] theorem values_rename (v : Variable) : (v.rename E).values = v.values.map (Value.rename E) := by
  simp [values, Function.comp_def]

@[simp] theorem rename_ofBindings (bs : List (Binding Value)) :
    (ofBindings bs).rename E = .ofBindings (bs.map fun b => ⟨b.value.rename E, b.origin⟩) :=
  congrArg ofBindings (renameBindings_eq bs)

@[simp] theorem rename_ofValueAt (a : Value) (origin : Origin) :
    (ofValueAt a origin).rename E = .ofValueAt (a.rename E) origin := rfl

@[simp] theorem rename_var (a : Value) : a.var.rename E = (a.rename E).var := rfl

theorem rename_addBinding (bs : List (Binding Value)) (b : Binding Value) :
    ((addBinding bs b).map fun b => (⟨b.value.rename E, b.origin⟩ : Binding Value)) =
      addBinding (bs.map fun b => ⟨b.value.rename E, b.origin⟩) ⟨b.value.rename E, b.origin⟩ := by
  simp only [addBinding, List.any_map, Function.comp_def, Value.beq_rename]
  split <;> simp

theorem rename_addBindings (bs new : List (Binding Value)) :
    ((new.foldl addBinding bs).map fun b => (⟨b.value.rename E, b.origin⟩ : Binding Value)) =
      (new.map fun b => (⟨b.value.rename E, b.origin⟩ : Binding Value)).foldl addBinding
        (bs.map fun b => ⟨b.value.rename E, b.origin⟩) := by
  induction new generalizing bs with
  | nil => rfl
  | cons b rest ih => rw [List.foldl_cons, ih, rename_addBinding, List.map_cons, List.foldl_cons]

theorem rename_ofDistinct (bs : List (Binding Value)) :
    (ofDistinct bs).rename E = ofDistinct (bs.map fun b => ⟨b.value.rename E, b.origin⟩) := by
  cases bs <;> simp [ofDistinct, ofValue]

theorem rename_ofValues (values : List Value) :
    (ofValues values).rename E = ofValues (values.map (Value.rename E)) := by
  have gathered (values : List Value) :
      values.foldl (fun bindings value => addBinding bindings ⟨value, .synthetic⟩) [] =
        (values.map fun a => (⟨a, .synthetic⟩ : Binding Value)).foldl addBinding [] := by
    rw [List.foldl_map]
  rw [ofValues, ofValues, rename_ofDistinct, gathered, gathered, rename_addBindings]
  simp [Function.comp_def]

theorem rename_merge (vs : List Variable) :
    (merge vs).rename E = merge (vs.map (rename E)) := by
  rw [merge, merge, rename_ofDistinct, rename_addBindings]
  simp [List.flatMap_map, List.map_flatMap]

theorem rename_mergeWith (v w : Variable) :
    (v.mergeWith w).rename E = (v.rename E).mergeWith (w.rename E) := by
  rw [mergeWith, mergeWith, rename_ofBindings, rename_addBindings]
  simp

@[simp] theorem count_rename (v : Variable) : (v.rename E).count = v.count := by simp [count]

@[simp] theorem isAtomic_rename (v : Variable) : (v.rename E).isAtomic = v.isAtomic := by
  simp [isAtomic]

@[simp] theorem atomic?_rename (v : Variable) :
    (v.rename E).atomic? = v.atomic?.map (Value.rename E) := by
  obtain ⟨_ | ⟨b, _ | ⟨c, rest⟩⟩⟩ := v <;> simp [atomic?, bindings]

@[simp] theorem holds_rename (v : Variable) (a : Value) :
    (v.rename E).holds (a.rename E) = v.holds a := by
  simp only [holds, atomic?_rename]
  cases v.atomic? <;> simp

theorem holds_null_rename (v : Variable) : (v.rename E).holds .null = v.holds .null :=
  holds_rename v .null

theorem holds_noneObject_rename (v : Variable) :
    (v.rename E).holds .noneObject = v.holds .noneObject :=
  holds_rename v .noneObject

theorem rename_joined (v : Variable) : v.joined.rename E = (v.rename E).joined := by
  rw [joined, Value.rename_join, joined, values_rename]

theorem joined_mapValues (names : NameMap Variable) :
    (names.mapValues joined).mapValues (Value.rename E) =
      (names.mapValues (rename E)).mapValues joined := by
  simp [NameMap.mapValues, rename_joined]

/-- Unpacking a renamed variable gives the renamed value, or the same fault. -/
theorem atomic_rename (v : Variable) : (v.rename E).atomic = v.atomic.map (Value.rename E) := by
  obtain ⟨_ | ⟨b, _ | ⟨c, rest⟩⟩⟩ := v <;> simp [atomic, bindings, Except.map]

theorem literal_rename {α : Type} (v : Variable) (shape : Literal.Shape α) :
    (v.rename E).literal shape = v.literal shape := by
  rw [literal, literal, atomic_rename]
  cases v.atomic with
  | error fault => rfl
  | ok a => cases a <;> rfl

end Variable

@[simp] theorem Value.knownElements?_rename (a : Value) :
    (a.rename E).knownElements? = a.knownElements?.map (List.map (Variable.rename E)) := by
  cases a with
  | literal l => cases l <;> simp [knownElements?, Function.comp_def]
  | _ => simp [knownElements?]

/-! ## Block states -/

/-- A block state with every object in it renamed. -/
def BlockState.rename (E : Renaming) (state : BlockState) : BlockState :=
  ⟨state.locals.mapValues (Variable.rename E), state.stack.map (Variable.rename E)⟩

namespace BlockState

theorem rename_mergeLocals (here there : NameMap Variable) :
    (mergeLocals here there).mapValues (Variable.rename E) =
      mergeLocals (here.mapValues (Variable.rename E)) (there.mapValues (Variable.rename E)) := by
  induction there generalizing here with
  | nil => rfl
  | cons entry rest ih =>
    refine (ih _).trans (congrArg (mergeLocals · _) ?_)
    exact NameMap.mapValues_upsert fun v => Variable.rename_mergeWith v entry.2

theorem merge_rename (here there : BlockState) :
    (here.rename E).merge (there.rename E) = (here.merge there).map (rename E) := by
  simp only [merge, rename, List.length_map]
  split
  · simp only [Except.map, rename_mergeLocals, rename]
    simp [List.zipWith_map, List.map_zipWith, Variable.rename_mergeWith]
  · rfl

end BlockState

end StubInference
