import StubInference.Frame.Container
import StubInference.Frame.Operator
import StubInference.Proofs.Value.Confined

/-!
# Values that hold something everywhere

A variable that holds no value, and a union without members, would stand for an expression that never
has a value. The analysis makes neither, at any depth: where nothing is known, something may be
anything.

## Main definitions

* `Value.Filled`, `Variable.Filled` — no variable and no union inside is empty
* `BlockState.Filled` — the same for the locals and the stack of a frame

## Main results

* `Variable.Filled.mergeWith`, `Variable.Filled.ofValues`, `Variable.Filled.joined` — joins
* `Variable.Filled.appended`, `Variable.Filled.extended`, `Variable.Filled.tupleOf`,
  `Variable.Filled.combined`, `Variable.Filled.keyedBy` — containers
-/

namespace StubInference

mutual
/-- A value that is no empty union and all of whose parts are filled. -/
inductive Value.Filled : Value → Prop
  | intro {a : Value} (inhabited : a ≠ .union []) (inner : ∀ b ∈ a.inner, Value.Filled b)
      (parts : ∀ v ∈ a.parts, Variable.Filled v) : Value.Filled a

/-- A variable that holds some value, all of them filled. -/
inductive Variable.Filled : Variable → Prop
  | intro {v : Variable} (inhabited : v.values ≠ []) (values : ∀ a ∈ v.values, Value.Filled a) :
      Variable.Filled v
end

/-! ## Values -/

namespace Value.Filled

variable {a : Value}

theorem inhabited : a.Filled → a ≠ .union []
  | .intro inhabited _ _ => inhabited

theorem inner : a.Filled → ∀ b ∈ a.inner, b.Filled
  | .intro _ inner _ => inner

theorem parts : a.Filled → ∀ v ∈ a.parts, v.Filled
  | .intro _ _ parts => parts

/-- A value that holds nothing and is no union. -/
theorem of_plain (inhabited : a ≠ .union []) (hinner : a.inner = []) (hparts : a.parts = []) :
    a.Filled := .intro inhabited (by simp [hinner]) (by simp [hparts])

/-- A container is filled where its parts are. -/
theorem of_parts (inhabited : a ≠ .union []) (hinner : a.inner = [])
    (parts : ∀ v ∈ a.parts, v.Filled) : a.Filled := .intro inhabited (by simp [hinner]) parts

theorem any : Value.any.Filled := .of_plain nofun rfl rfl

theorem null : Value.null.Filled := .of_plain nofun rfl rfl

theorem literal (l : Literal) : (Value.literal l).Filled := .of_plain nofun rfl rfl

theorem classObject (cls : ClassId) : (Value.classObject cls).Filled := .of_plain nofun rfl rfl

theorem function (id : FunctionId) : (Value.function id).Filled := .of_plain nofun rfl rfl

theorem instanceObject (id : InstanceId) : (Value.instanceObject id).Filled :=
  .of_plain nofun rfl rfl

theorem frozen (cls : ClassId) : (Value.frozen cls).Filled := .of_plain nofun rfl rfl

theorem noneObject : Value.noneObject.Filled := literal _

theorem bind (h : a.Filled) (id : FunctionId) : (Value.bind a id).Filled :=
  .intro nofun (List.forall_mem_singleton.mpr h) (List.forall_mem_nil _)

theorem union {members : List Value} (inhabited : members ≠ []) (h : ∀ b ∈ members, b.Filled) :
    (Value.union members).Filled :=
  .intro (fun e => inhabited (Value.union.inj e)) h (List.forall_mem_nil _)

theorem tuple {elements : List Variable} (h : ∀ v ∈ elements, v.Filled) :
    (Value.tuple (some elements)).Filled := .of_parts nofun rfl h

theorem list {elements : List Variable} (h : ∀ v ∈ elements, v.Filled) :
    (Value.list (some elements)).Filled := .of_parts nofun rfl h

theorem argTuple {elements : Option (List Variable)}
    (h : ∀ vs, elements = some vs → ∀ v ∈ vs, v.Filled) : (Value.argTuple elements).Filled := by
  cases elements with
  | none => exact .of_plain nofun rfl rfl
  | some vs => exact .of_parts nofun rfl (h vs rfl)

theorem dict {entries : List (Variable × Variable)} (h : ∀ e ∈ entries, e.1.Filled ∧ e.2.Filled) :
    (Value.dict (some entries)).Filled := by
  refine .of_parts nofun rfl fun v hv => ?_
  obtain ⟨e, he, hve⟩ := List.mem_flatMap.mp hv
  obtain rfl | rfl : v = e.1 ∨ v = e.2 := by simpa using hve
  · exact (h e he).1
  · exact (h e he).2

theorem argDict {entries : Option (NameMap Variable)}
    (h : ∀ es, entries = some es → NameMap.All Variable.Filled es) :
    (Value.argDict entries).Filled := by
  cases entries with
  | none => exact .of_plain nofun rfl rfl
  | some es =>
    refine .of_parts nofun rfl fun v hv => ?_
    obtain ⟨entry, hentry, rfl⟩ := List.mem_map.mp hv
    exact h es rfl entry hentry

theorem of_dict {es : List (Variable × Variable)} (h : (Value.dict (some es)).Filled) :
    ∀ e ∈ es, e.1.Filled ∧ e.2.Filled := fun e he =>
  ⟨h.parts _ (List.mem_flatMap.mpr ⟨e, he, by simp⟩),
    h.parts _ (List.mem_flatMap.mpr ⟨e, he, by simp⟩)⟩

theorem of_argDict {es : NameMap Variable} (h : (Value.argDict (some es)).Filled) :
    NameMap.All Variable.Filled es := fun entry hentry =>
  h.parts _ (List.mem_map.mpr ⟨entry, hentry, rfl⟩)

/-- The members that a value brings into a join. -/
theorem members (h : a.Filled) : ∀ b ∈ a.members, b.Filled := by
  cases a with
  | union members => exact h.inner
  | _ => exact List.forall_mem_singleton.mpr h

theorem join {as : List Value} (h : ∀ b ∈ as, b.Filled) : (Value.join as).Filled := by
  have new : ∀ b ∈ Value.addNew [] (as.flatMap Value.members), b.Filled := fun b hb => by
    have hb := (Value.mem_or_mem_of_mem_addNew hb).resolve_left List.not_mem_nil
    obtain ⟨c, hc, hbc⟩ := List.mem_flatMap.mp hb
    exact (h c hc).members b hbc
  unfold Value.join Value.ofMembers
  split
  case h_1 => exact .any
  case h_2 value heq => exact new value (by simp [heq])
  case h_3 hne _ => exact .union hne new

end Value.Filled

/-! ## Variables -/

namespace Variable.Filled

variable {v w : Variable} {a : Value} {vs : List Variable}

theorem inhabited : v.Filled → v.values ≠ []
  | .intro inhabited _ => inhabited

theorem values : v.Filled → ∀ a ∈ v.values, a.Filled
  | .intro _ values => values

theorem ofValueAt (h : a.Filled) (o : Origin) : (Variable.ofValueAt a o).Filled :=
  .intro (by simp) (by simpa using h)

theorem var (h : a.Filled) : a.var.Filled := ofValueAt h .synthetic

theorem mergeWith (hv : v.Filled) (hw : w.Filled) : (v.mergeWith w).Filled := by
  refine .intro ?_ fun a ha => ?_
  · rw [values_mergeWith]
    obtain ⟨extra, same, -⟩ := Value.addNew_eq_append v.values w.values
    rw [same]
    exact List.append_ne_nil_of_left_ne_nil hv.inhabited _
  · rw [values_mergeWith] at ha
    exact (Value.mem_or_mem_of_mem_addNew ha).elim (hv.values a) (hw.values a)

/-- A variable that gathers values, or holds `any` where there are none. -/
theorem of_gathered {as : List Value} (h : ∀ a ∈ as, a.Filled)
    (same : v.values = if as = [] then [.any] else Value.addNew [] as) : v.Filled := by
  constructor <;> rw [same]
  · split
    case isTrue => exact List.cons_ne_nil _ _
    case isFalse hne => exact Value.addNew_ne_nil hne
  · split
    case isTrue => exact List.forall_mem_singleton.mpr .any
    case isFalse =>
      exact fun a ha => h a ((Value.mem_or_mem_of_mem_addNew ha).resolve_left List.not_mem_nil)

theorem ofValues {as : List Value} (h : ∀ a ∈ as, a.Filled) : (Variable.ofValues as).Filled :=
  of_gathered h (values_ofValues as)

theorem merge (h : ∀ v ∈ vs, v.Filled) : (Variable.merge vs).Filled := by
  refine of_gathered (fun a ha => ?_) (values_merge vs)
  obtain ⟨v, hv, hav⟩ := List.mem_flatMap.mp ha
  exact (h v hv).values a hav

theorem joined (h : v.Filled) : v.joined.Filled := .join h.values

theorem atomic? (h : v.Filled) (ha : v.atomic? = some a) : a.Filled := by
  rw [atomic?_eq_some_iff] at ha
  exact h.values a (by simp [ha])

theorem atomic (h : v.Filled) (ha : v.atomic = .ok a) : a.Filled :=
  h.values a (by rw [Variable.atomic_eq_ok_iff.mp ha]; exact List.mem_singleton_self _)

/-! ### Containers -/

/-- The items of a literal tuple as variables. -/
theorem items (items : List Literal) :
    ∀ v ∈ items.map fun item => (Value.literal item).var, v.Filled := by
  rintro _ h
  obtain ⟨item, -, rfl⟩ := List.mem_map.mp h
  exact .var (.literal item)

/-- The elements that a value is known to have. -/
theorem knownElements (h : a.Filled) (ha : a.knownElements? = some vs) : ∀ v ∈ vs, v.Filled := by
  cases a with
  | tuple contents | list contents =>
    obtain rfl : contents = some vs := ha
    exact h.parts
  | literal l =>
    cases l with
    | tuple contents =>
      obtain rfl := Option.some.inj ha
      exact items contents
    | _ => cases ha
  | _ => cases ha

theorem sequenceElements (h : v.Filled) (hv : sequenceElements? v = some vs) :
    ∀ w ∈ vs, w.Filled := by
  obtain ⟨a, ha, hel⟩ := Option.bind_eq_some_iff.mp hv
  exact knownElements (h.atomic? ha) hel

theorem listElements (h : v.Filled) (hv : listElements? v = some vs) : ∀ w ∈ vs, w.Filled := by
  unfold listElements? at hv
  split at hv
  case h_1 contents ha =>
    subst hv
    exact (h.atomic? ha).parts
  case h_2 => cases hv

theorem dictEntries {entries : List (Variable × Variable)} (h : v.Filled)
    (hv : dictEntries? v = some entries) : ∀ e ∈ entries, e.1.Filled ∧ e.2.Filled := by
  unfold dictEntries? at hv
  split at hv
  case h_1 contents ha =>
    subst hv
    exact (h.atomic? ha).of_dict
  case h_2 => cases hv

theorem appended (hv : v.Filled) (hw : w.Filled) : (StubInference.appended v w).Filled := by
  unfold StubInference.appended
  cases known : listElements? v with
  | none => exact .of_plain nofun rfl rfl
  | some elements =>
    have here := hv.listElements known
    exact .list (List.forall_mem_append.mpr ⟨here, List.forall_mem_singleton.mpr hw⟩)

theorem extended (hv : v.Filled) (hw : w.Filled) : (StubInference.extended v w).Filled := by
  unfold StubInference.extended
  split
  case h_1 elements extra known more =>
    exact .list (List.forall_mem_append.mpr ⟨hv.listElements known, hw.sequenceElements more⟩)
  case h_2 => exact .of_plain nofun rfl rfl

theorem tupleOf (hv : v.Filled) : (StubInference.tupleOf v).Filled := by
  unfold StubInference.tupleOf
  cases known : sequenceElements? v with
  | none => exact .of_plain nofun rfl rfl
  | some elements => exact .tuple (hv.sequenceElements known)

theorem combined (hv : v.Filled) (hw : w.Filled) : (StubInference.combined v w).Filled := by
  unfold StubInference.combined
  split
  case h_1 entries extra known more =>
    exact .dict (List.forall_mem_append.mpr ⟨hv.dictEntries known, hw.dictEntries more⟩)
  case h_2 => exact .of_plain nofun rfl rfl

theorem pairUp (h : ∀ v ∈ vs, v.Filled) :
    ∀ e ∈ StubInference.pairUp vs, e.1.Filled ∧ e.2.Filled := by
  induction vs using StubInference.pairUp.induct with
  | case1 key value rest ih =>
    simp only [List.forall_mem_cons] at h
    rw [StubInference.pairUp]
    exact List.forall_mem_cons.mpr ⟨⟨h.1, h.2.1⟩, ih h.2.2⟩
  | case2 rest hrest => simp [StubInference.pairUp]

theorem keyedBy (hvs : ∀ w ∈ vs, w.Filled) (ha : StubInference.keyedBy v vs = .ok a) :
    a.Filled := by
  obtain ⟨contents, -, -, rfl⟩ := keyedBy_eq_ok_iff.mp ha
  refine .dict fun e he => ?_
  obtain ⟨key, value⟩ := List.of_mem_zip he
  exact ⟨items contents e.1 key, hvs e.2 value⟩

theorem namedEntries {entries : Option (List (Variable × Variable))} {names : NameMap Variable}
    (h : ∀ es, entries = some es → ∀ e ∈ es, e.1.Filled ∧ e.2.Filled)
    (hn : StubInference.namedEntries entries = .ok (some names)) :
    NameMap.All Variable.Filled names := by
  cases entries with
  | none => cases hn
  | some es =>
    obtain ⟨named, hm, hn⟩ := Except.bind_eq_ok.mp hn
    cases hn
    refine .ofEntries fun entry hentry => ?_
    obtain ⟨e, he, hkey⟩ := exists_of_mapM hm entry hentry
    obtain ⟨name, -, hname⟩ := Except.bind_eq_ok.mp hkey
    cases hname
    exact (h es rfl e he).2

theorem positionalDefaults (hv : v.Filled) (hvs : StubInference.positionalDefaults v = .ok vs) :
    ∀ w ∈ vs, w.Filled := by
  obtain ⟨a, ha, hvs⟩ := Except.bind_eq_ok.mp hvs
  have h := hv.atomic ha
  cases a with
  | tuple elements =>
    cases hvs
    cases elements with
    | none => exact List.forall_mem_nil _
    | some elements => exact h.parts
  | literal l =>
    cases l with
    | tuple contents =>
      cases hvs
      exact items contents
    | _ => cases hvs
  | _ => cases hvs

theorem keywordDefaults {names : NameMap Variable} (hv : v.Filled)
    (hn : StubInference.keywordDefaults v = .ok names) : NameMap.All Variable.Filled names := by
  obtain ⟨a, ha, hn⟩ := Except.bind_eq_ok.mp hn
  have h := hv.atomic ha
  cases a with
  | dict entries =>
    obtain ⟨found, hfound, hn⟩ := Except.bind_eq_ok.mp hn
    cases hn
    cases found with
    | none => exact .nil
    | some names => exact namedEntries (fun es hes => Value.Filled.of_dict (hes ▸ h)) hfound
  | _ => cases hn

/-! ### Operators -/

theorem binaryResults (heap : Heap) (v w : Variable) :
    (StubInference.binaryResults heap v w).Filled := by
  refine .ofValues fun r hr => ?_
  obtain ⟨b, -, hr⟩ := List.mem_flatMap.mp hr
  obtain ⟨d, -, rfl⟩ := List.mem_map.mp hr
  unfold binaryResult
  repeat' split
  all_goals first | exact .frozen _ | exact .any

theorem negationResults (v : Variable) :
    (Variable.ofValues (v.values.map negationResult)).Filled := by
  refine .ofValues fun r hr => ?_
  obtain ⟨b, -, rfl⟩ := List.mem_map.mp hr
  unfold negationResult
  split
  · exact .frozen _
  · exact .any

end Variable.Filled

/-! ## Locals and stacks -/

/-- Every variable of a block state is filled. -/
structure BlockState.Filled (state : BlockState) : Prop where
  locals : NameMap.All Variable.Filled state.locals
  stack : ∀ v ∈ state.stack, v.Filled

theorem NameMap.All.joinLocals {here there : NameMap Variable} (h : All Variable.Filled here)
    (hthere : All Variable.Filled there) :
    All Variable.Filled (BlockState.mergeLocals here there) :=
  h.mergeLocals hthere fun _ _ hv hw => hv.mergeWith hw

theorem BlockState.Filled.merge {here there merged : BlockState} (hhere : here.Filled)
    (hthere : there.Filled) (h : here.merge there = .ok merged) : merged.Filled := by
  unfold BlockState.merge at h
  split at h
  · cases h
    refine ⟨hhere.locals.joinLocals hthere.locals, fun v hv => ?_⟩
    rw [← List.map_uncurry_zip_eq_zipWith] at hv
    obtain ⟨⟨a, b⟩, hab, rfl⟩ := List.mem_map.mp hv
    obtain ⟨ha, hb⟩ := List.of_mem_zip hab
    exact (hhere.stack a ha).mergeWith (hthere.stack b hb)
  · cases h

end StubInference
