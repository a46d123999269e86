import StubInference.Frame.BlockState
import StubInference.Frame.Container
import StubInference.Frame.Operator
import StubInference.Proofs.Value.Tables
import StubInference.Proofs.Value.Tracking

/-!
# Code in values

Code objects are constants, so a value may carry code, at any depth. What the analysis computes from
values carries no other code than these do.

## Main definitions

* `Literal.Confined`, `Value.Confined`, `Variable.Confined` — every code object in a literal, a
  value or a variable has a given property
* `NameMap.Confined` — the same for every variable of a table

## Main results

* `Variable.Confined.mergeWith`, `Variable.Confined.ofValues`, `Variable.Confined.joined` — joins
* `Variable.Confined.appended`, `Variable.Confined.extended`, `Variable.Confined.tupleOf`,
  `Variable.Confined.combined`, `Variable.Confined.keyedBy` — containers
-/

namespace StubInference

/-- Every code object in a literal has the property. -/
inductive Literal.Confined (P : CodeSite → Code → Prop) : Literal → Prop
  | intro {l : Literal} (code : ∀ site body, l = .code site body → P site body)
      (items : ∀ items, l = .tuple items → ∀ item ∈ items, Literal.Confined P item) :
      Literal.Confined P l

mutual
/-- Every code object in a value has the property. -/
inductive Value.Confined (P : CodeSite → Code → Prop) : Value → Prop
  | intro {a : Value} (literal : ∀ l, a = .literal l → l.Confined P)
      (inner : ∀ b ∈ a.inner, Value.Confined P b) (parts : ∀ v ∈ a.parts, Variable.Confined P v) :
      Value.Confined P a

/-- Every code object in a variable has the property. -/
inductive Variable.Confined (P : CodeSite → Code → Prop) : Variable → Prop
  | intro {v : Variable} (values : ∀ a ∈ v.values, Value.Confined P a) : Variable.Confined P v
end

variable {P : CodeSite → Code → Prop}

/-! ## Literals -/

namespace Literal.Confined

theorem code {site : CodeSite} {body : Code} : (Literal.code site body).Confined P → P site body
  | .intro code _ => code _ _ rfl

theorem items {items : List Literal} : (Literal.tuple items).Confined P →
    ∀ item ∈ items, item.Confined P
  | .intro _ items => items _ rfl

/-- A literal that is neither code nor a tuple. -/
theorem of_plain {l : Literal} (hcode : ∀ site body, l ≠ .code site body)
    (htuple : ∀ items, l ≠ .tuple items) : l.Confined P :=
  .intro (fun site body h => absurd h (hcode site body)) fun items h => absurd h (htuple items)

end Literal.Confined

/-! ## Values -/

namespace Value.Confined

variable {a : Value}

theorem literal {l : Literal} : (Value.literal l).Confined P → l.Confined P
  | .intro literal _ _ => literal _ rfl

theorem inner : a.Confined P → ∀ b ∈ a.inner, b.Confined P
  | .intro _ inner _ => inner

theorem parts : a.Confined P → ∀ v ∈ a.parts, v.Confined P
  | .intro _ _ parts => parts

/-- A value that holds nothing. -/
theorem of_plain (hliteral : ∀ l, a ≠ .literal l) (hinner : a.inner = []) (hparts : a.parts = []) :
    a.Confined P :=
  .intro (fun l h => absurd h (hliteral l)) (by simp [hinner]) (by simp [hparts])

theorem of_literal {l : Literal} (h : l.Confined P) : (Value.literal l).Confined P :=
  .intro (fun _ e => by cases e; exact h) (by simp [Value.inner]) (by simp [Value.parts])

theorem any : Value.any.Confined P := .of_plain (by simp) rfl rfl

theorem null : Value.null.Confined P := .of_plain (by simp) rfl rfl

theorem frozen (cls : ClassId) : (Value.frozen cls).Confined P := .of_plain (by simp) rfl rfl

theorem classObject (cls : ClassId) : (Value.classObject cls).Confined P :=
  .of_plain (by simp) rfl rfl

theorem function (id : FunctionId) : (Value.function id).Confined P := .of_plain (by simp) rfl rfl

theorem instanceObject (id : InstanceId) : (Value.instanceObject id).Confined P :=
  .of_plain (by simp) rfl rfl

theorem noneObject : Value.noneObject.Confined P := of_literal (.of_plain (by simp) (by simp))

theorem text (s : String) : (Value.literal (.str s)).Confined P :=
  of_literal (.of_plain (by simp) (by simp))

theorem bind (h : a.Confined P) (id : FunctionId) : (Value.bind a id).Confined P :=
  .intro (by simp [Value.bind]) (by simpa [Value.bind, Value.inner] using h)
    (by simp [Value.bind, Value.parts])

/-- The members of a union. -/
theorem union {members : List Value} (h : ∀ b ∈ members, b.Confined P) :
    (Value.union members).Confined P :=
  .intro (by simp) h (by simp [Value.parts])

theorem tuple {elements : Option (List Variable)}
    (h : ∀ vs, elements = some vs → ∀ v ∈ vs, v.Confined P) : (Value.tuple elements).Confined P :=
  .intro (by simp) (by simp [Value.inner]) (by cases elements <;> simp_all [Value.parts])

theorem list {elements : Option (List Variable)}
    (h : ∀ vs, elements = some vs → ∀ v ∈ vs, v.Confined P) : (Value.list elements).Confined P :=
  .intro (by simp) (by simp [Value.inner]) (by cases elements <;> simp_all [Value.parts])

theorem argTuple {elements : Option (List Variable)}
    (h : ∀ vs, elements = some vs → ∀ v ∈ vs, v.Confined P) :
    (Value.argTuple elements).Confined P :=
  .intro (by simp) (by simp [Value.inner]) (by cases elements <;> simp_all [Value.parts])

theorem dict {entries : Option (List (Variable × Variable))}
    (h : ∀ es, entries = some es → ∀ e ∈ es, e.1.Confined P ∧ e.2.Confined P) :
    (Value.dict entries).Confined P := by
  refine .intro (by simp) (by simp [Value.inner]) ?_
  cases entries with
  | none => simp [Value.parts]
  | some es =>
    intro v hv
    obtain ⟨e, he, hve⟩ := List.mem_flatMap.mp hv
    obtain rfl | rfl : v = e.1 ∨ v = e.2 := by simpa using hve
    · exact (h es rfl e he).1
    · exact (h es rfl e he).2

theorem argDict {entries : Option (List (String × Variable))}
    (h : ∀ es, entries = some es → ∀ e ∈ es, e.2.Confined P) :
    (Value.argDict entries).Confined P := by
  refine .intro (by simp) (by simp [Value.inner]) ?_
  cases entries with
  | none => simp [Value.parts]
  | some es => simpa [Value.parts] using fun v name hv => h es rfl (name, v) hv

theorem of_dict {es : List (Variable × Variable)} (h : (Value.dict (some es)).Confined P) :
    ∀ e ∈ es, e.1.Confined P ∧ e.2.Confined P := fun e he =>
  ⟨h.parts _ (List.mem_flatMap.mpr ⟨e, he, by simp⟩),
    h.parts _ (List.mem_flatMap.mpr ⟨e, he, by simp⟩)⟩

/-- The members that a value brings into a join. -/
theorem members (h : a.Confined P) : ∀ b ∈ a.members, b.Confined P := by
  cases a with
  | union members => exact h.inner
  | _ => simpa [Value.members] using h

theorem join {as : List Value} (h : ∀ b ∈ as, b.Confined P) : (Value.join as).Confined P := by
  have hmembers : ∀ b ∈ as.flatMap Value.members, b.Confined P := fun b hb => by
    obtain ⟨c, hc, hbc⟩ := List.mem_flatMap.mp hb
    exact (h c hc).members b hbc
  have hnew : ∀ b ∈ Value.addNew [] (as.flatMap Value.members), b.Confined P := fun b hb =>
    hmembers b ((Value.mem_or_mem_of_mem_addNew hb).resolve_left (by simp))
  unfold Value.join Value.ofMembers
  split
  · exact .any
  case h_2 value heq => exact hnew value (by simp [heq])
  · exact .union hnew

end Value.Confined

/-! ## Variables -/

/-- Every code object in a table has the property. -/
def NameMap.Confined (P : CodeSite → Code → Prop) (map : NameMap Variable) : Prop :=
  ∀ entry ∈ map, entry.2.Confined P

/-- Every code object in a table of values has the property. -/
def NameMap.AllConfined (P : CodeSite → Code → Prop) (map : NameMap Value) : Prop :=
  ∀ entry ∈ map, entry.2.Confined P

namespace Variable.Confined

variable {v w : Variable} {a : Value}

theorem values : v.Confined P → ∀ a ∈ v.values, a.Confined P
  | .intro values => values

theorem ofValueAt (h : a.Confined P) (o : Origin) : (Variable.ofValueAt a o).Confined P :=
  .intro (by simpa using h)

theorem var (h : a.Confined P) : a.var.Confined P := .intro (by simpa using h)

theorem mergeWith (hv : v.Confined P) (hw : w.Confined P) : (v.mergeWith w).Confined P := by
  refine .intro fun a ha => ?_
  rw [values_mergeWith] at ha
  exact (Value.mem_or_mem_of_mem_addNew ha).elim (hv.values a) (hw.values a)

theorem ofValues {as : List Value} (h : ∀ a ∈ as, a.Confined P) :
    (Variable.ofValues as).Confined P := by
  refine .intro fun a ha => ?_
  rw [values_ofValues] at ha
  split at ha
  · obtain rfl : a = .any := by simpa using ha
    exact .any
  · exact h a ((Value.mem_or_mem_of_mem_addNew ha).resolve_left (by simp))

theorem merge {vs : List Variable} (h : ∀ v ∈ vs, v.Confined P) : (Variable.merge vs).Confined P := by
  refine .intro fun a ha => ?_
  rw [values_merge] at ha
  split at ha
  · obtain rfl : a = .any := by simpa using ha
    exact .any
  · have hmem := (Value.mem_or_mem_of_mem_addNew ha).resolve_left (by simp)
    obtain ⟨v, hv, hav⟩ := List.mem_flatMap.mp hmem
    exact (h v hv).values a hav

theorem joined (h : v.Confined P) : v.joined.Confined P := .join h.values

theorem atomic? (h : v.Confined P) (ha : v.atomic? = some a) : a.Confined P := by
  rw [atomic?_eq_some_iff] at ha
  exact h.values a (by simp [ha])

theorem atomic (h : v.Confined P) (ha : v.atomic = .ok a) : a.Confined P := by
  obtain ⟨_ | ⟨b, _ | ⟨c, rest⟩⟩⟩ := v
  · cases ha
  · cases ha
    exact h.values _ (by simp [Variable.values, Variable.bindings])
  · cases ha

/-! ### Containers -/

/-- The elements that a value is known to have. -/
theorem knownElements {elements : List Variable} (h : a.Confined P)
    (ha : a.knownElements? = some elements) : ∀ v ∈ elements, v.Confined P := by
  cases a with
  | tuple contents | list contents =>
    obtain rfl : contents = some elements := ha
    exact h.parts
  | literal l =>
    cases l with
    | tuple items =>
      obtain rfl := Option.some.inj ha
      intro v hv
      obtain ⟨item, hitem, rfl⟩ := List.mem_map.mp hv
      exact .var (.of_literal (h.literal.items item hitem))
    | _ => simp [Value.knownElements?] at ha
  | _ => simp [Value.knownElements?] at ha

theorem listElements {elements : List Variable} (h : v.Confined P)
    (hv : listElements? v = some elements) : ∀ w ∈ elements, w.Confined P := by
  unfold listElements? at hv
  split at hv
  case h_1 contents ha =>
    subst hv
    exact (h.atomic? ha).parts
  case h_2 => simp at hv

theorem dictEntries {entries : List (Variable × Variable)} (h : v.Confined P)
    (hv : dictEntries? v = some entries) : ∀ e ∈ entries, e.1.Confined P ∧ e.2.Confined P := by
  unfold dictEntries? at hv
  split at hv
  case h_1 contents ha =>
    subst hv
    exact (h.atomic? ha).of_dict
  case h_2 => simp at hv

theorem sequenceElements {elements : List Variable} (h : v.Confined P)
    (hv : sequenceElements? v = some elements) : ∀ w ∈ elements, w.Confined P := by
  obtain ⟨a, ha, hel⟩ := Option.bind_eq_some_iff.mp hv
  exact knownElements (h.atomic? ha) hel

theorem appended (hv : v.Confined P) (hw : w.Confined P) :
    (StubInference.appended v w).Confined P := by
  refine .list fun vs hvs => ?_
  obtain ⟨elements, hel, rfl⟩ := Option.map_eq_some_iff.mp hvs
  simpa [or_imp, forall_and] using ⟨hv.listElements hel, hw⟩

theorem extended (hv : v.Confined P) (hw : w.Confined P) :
    (StubInference.extended v w).Confined P := by
  refine .list fun vs hvs => ?_
  split at hvs
  case h_1 elements extra hel hextra =>
    obtain rfl := Option.some.inj hvs
    simpa [or_imp, forall_and] using ⟨hv.listElements hel, hw.sequenceElements hextra⟩
  case h_2 => simp at hvs

theorem tupleOf (hv : v.Confined P) : (StubInference.tupleOf v).Confined P :=
  .tuple fun _ hvs => hv.sequenceElements hvs

theorem combined (hv : v.Confined P) (hw : w.Confined P) :
    (StubInference.combined v w).Confined P := by
  refine .dict fun es hes => ?_
  split at hes
  case h_1 entries extra hentries hextra =>
    obtain rfl := Option.some.inj hes
    intro e he
    exact (List.mem_append.mp he).elim (hv.dictEntries hentries e) (hw.dictEntries hextra e)
  case h_2 => simp at hes

theorem pairUp {vs : List Variable} (h : ∀ v ∈ vs, v.Confined P) :
    ∀ e ∈ StubInference.pairUp vs, e.1.Confined P ∧ e.2.Confined P := by
  induction vs using StubInference.pairUp.induct with
  | case1 key value rest ih =>
    simp only [List.forall_mem_cons] at h
    simpa [StubInference.pairUp] using ⟨⟨h.1, h.2.1⟩, fun a b => ih h.2.2 (a, b)⟩
  | case2 rest hrest => simp [StubInference.pairUp]

end Variable.Confined

/-! ## Tables -/

namespace NameMap.Confined

variable {map other : NameMap Variable} {name : String} {v : Variable}

theorem nil : NameMap.Confined P [] := All.nil

theorem get? (h : NameMap.Confined P map) (hv : map.get? name = some v) : v.Confined P :=
  All.get? h hv

theorem insert (h : NameMap.Confined P map) (hv : v.Confined P) :
    NameMap.Confined P (map.insert name v) := All.insert h hv

theorem erase (h : NameMap.Confined P map) : NameMap.Confined P (map.erase name) := All.erase h

theorem upsert (h : NameMap.Confined P map) (hv : v.Confined P) :
    NameMap.Confined P (map.upsert name v (·.mergeWith v)) :=
  All.upsert h hv fun _ hw => hw.mergeWith hv

theorem ofEntries {entries : List (String × Variable)}
    (h : ∀ entry ∈ entries, entry.2.Confined P) :
    NameMap.Confined P (NameMap.ofEntries entries) := All.ofEntries h

theorem mergeLocals (h : NameMap.Confined P map) (hother : NameMap.Confined P other) :
    NameMap.Confined P (BlockState.mergeLocals map other) :=
  All.mergeLocals h hother fun _ _ hv hw => hv.mergeWith hw

/-- The values of a table joined one by one. -/
theorem joined (h : NameMap.Confined P map) :
    NameMap.AllConfined P (map.mapValues Variable.joined) := All.mapValues h fun _ hv => hv.joined

end NameMap.Confined

namespace NameMap.AllConfined

variable {map : NameMap Value} {name : String} {a : Value}

theorem nil : NameMap.AllConfined P [] := All.nil

theorem get? (h : NameMap.AllConfined P map) (ha : map.get? name = some a) : a.Confined P :=
  All.get? h ha

theorem insert (h : NameMap.AllConfined P map) (ha : a.Confined P) :
    NameMap.AllConfined P (map.insert name a) := All.insert h ha

/-- Every value of a table as a variable of its own. -/
theorem vars (h : NameMap.AllConfined P map) : NameMap.Confined P (map.mapValues Value.var) :=
  All.mapValues h fun _ ha => .var ha

end NameMap.AllConfined

/-! ## Entries of dictionaries -/

/-- A sequence of checks succeeds when both of them do. -/
theorem Except.bind_eq_ok {α β : Type} {check : Except Fault α} {next : α → Except Fault β} {b : β} :
    (check >>= next) = .ok b ↔ ∃ a, check = .ok a ∧ next a = .ok b := by
  cases check <;> simp [bind, Except.bind]

/-- What an item of a checked list comes from. -/
theorem exists_of_mapM {α β : Type} {f : α → Except Fault β} {as : List α} {bs : List β}
    (h : as.mapM f = .ok bs) : ∀ b ∈ bs, ∃ a ∈ as, f a = .ok b := by
  induction as generalizing bs with
  | nil =>
    cases h
    simp
  | cons a as ih =>
    rw [List.mapM_cons] at h
    obtain ⟨b, hb, h⟩ := Except.bind_eq_ok.mp h
    obtain ⟨cs, hcs, h⟩ := Except.bind_eq_ok.mp h
    cases h
    simpa using ⟨.inl hb, fun c hc => .inr (ih hcs c hc)⟩

theorem NameMap.Confined.namedEntries {entries : Option (List (Variable × Variable))}
    {names : NameMap Variable}
    (h : ∀ es, entries = some es → ∀ e ∈ es, e.1.Confined P ∧ e.2.Confined P)
    (hn : StubInference.namedEntries entries = .ok (some names)) : NameMap.Confined P names := by
  cases entries with
  | none => cases hn
  | some es =>
    obtain ⟨named, hm, hn⟩ := Except.bind_eq_ok.mp hn
    cases hn
    refine .ofEntries fun entry hentry => ?_
    obtain ⟨e, he, hkey⟩ := exists_of_mapM hm entry hentry
    obtain ⟨name, -, hname⟩ := Except.bind_eq_ok.mp hkey
    cases hname
    exact (h es rfl e he).2

namespace Variable.Confined

variable {v : Variable} {vs : List Variable}

/-- The items of a literal tuple as variables. -/
theorem items {items : List Literal} (h : (Value.literal (.tuple items)).Confined P) :
    ∀ w ∈ items.map fun item => (Value.literal item).var, w.Confined P := by
  intro w hw
  obtain ⟨item, hitem, rfl⟩ := List.mem_map.mp hw
  exact .var (.of_literal (h.literal.items item hitem))

theorem keyedBy {a : Value} (hv : v.Confined P) (hvs : ∀ w ∈ vs, w.Confined P)
    (ha : StubInference.keyedBy v vs = .ok a) : a.Confined P := by
  obtain ⟨items, hitems, -, rfl⟩ := keyedBy_eq_ok_iff.mp ha
  have hkeys := Confined.items (hv.values _ (by rw [hitems]; exact List.mem_singleton_self _))
  refine .dict fun es hes e he => ?_
  obtain rfl := Option.some.inj hes
  exact ⟨hkeys e.1 (List.of_mem_zip he).1, hvs e.2 (List.of_mem_zip he).2⟩

theorem positionalDefaults (hv : v.Confined P) (hvs : StubInference.positionalDefaults v = .ok vs) :
    ∀ w ∈ vs, w.Confined P := by
  obtain ⟨a, ha, hvs⟩ := Except.bind_eq_ok.mp hvs
  have h := hv.atomic ha
  cases a with
  | tuple elements =>
    cases hvs
    cases elements with
    | none => simp
    | some elements => exact h.parts
  | literal l =>
    cases l with
    | tuple items =>
      cases hvs
      exact Confined.items h
    | _ => cases hvs
  | _ => cases hvs

theorem keywordDefaults {names : NameMap Variable} (hv : v.Confined P)
    (hn : StubInference.keywordDefaults v = .ok names) : NameMap.Confined P names := by
  obtain ⟨a, ha, hn⟩ := Except.bind_eq_ok.mp hn
  have h := hv.atomic ha
  cases a with
  | dict entries =>
    obtain ⟨found, hfound, hn⟩ := Except.bind_eq_ok.mp hn
    cases hn
    cases found with
    | none => exact .nil
    | some names =>
      exact .namedEntries (fun es hes => Value.Confined.of_dict (hes ▸ h)) hfound
  | _ => cases hn

/-- Operators answer classes or anything, whatever they are given. -/
theorem binaryResults (heap : Heap) (v w : Variable) :
    (StubInference.binaryResults heap v w).Confined P := by
  refine .ofValues fun r hr => ?_
  obtain ⟨b, -, hr⟩ := List.mem_flatMap.mp hr
  obtain ⟨d, -, rfl⟩ := List.mem_map.mp hr
  unfold binaryResult
  repeat' split
  all_goals first | exact .frozen _ | exact .any

theorem negationResults (v : Variable) :
    (Variable.ofValues (v.values.map negationResult)).Confined P := by
  refine .ofValues fun r hr => ?_
  obtain ⟨b, -, rfl⟩ := List.mem_map.mp hr
  unfold negationResult
  split
  · exact .frozen _
  · exact .any

end Variable.Confined

end StubInference
