import StubInference.Proofs.Class.Namespace
import StubInference.Proofs.Run.Attributes
import StubInference.Proofs.Run.SafeStages
import StubInference.Proofs.Value.Description

/-!
# Attributes of unions

Several possible values come as the values of one variable, or joined in a union, as they do when a
member of a class is read back. Calls and reads go on to the members of a union. A store does not: it
reaches what the variable holds by itself. And a read of a union leaves out the members that lack the
attribute unless all of them do, where a read of a variable reports each value that lacks it.

## Main definitions

* `Variable.Spreads` — two variables that may hold the same values, joined in unions or one by one
* `Variable.StoresCompare`, `Variable.ReadsCompare` — how stores and reads through them compare

## Main results

* `Variable.Spreads.setAttribute_eq_iff` — where stores come to the same
* `Variable.Spreads.joined_includes_iff`, `Variable.Spreads.same_findings_iff` — where reads do
* `Variable.Spreads.attributes_agree_iff` — stores and reads together
-/

namespace StubInference

/-! ## The same values, joined or one by one -/

/-- Two values that variables do not tell apart. -/
def Value.Alike (a b : Value) : Prop := a = b ∨ a.same b = true

/-- Two variables that may hold the same values. The first one may have several of them joined in a
union, the second one holds each by itself. -/
structure Variable.Spreads (joined spread : Variable) : Prop where
  joinedDistinct : joined.values.Pairwise fun a b => a.same b = false
  spreadDistinct : spread.values.Pairwise fun a b => a.same b = false
  /-- Unions are as joins make them: they have members, none of which is a union. -/
  unions : ∀ a ∈ joined.values, a.Flat ∧ a.members ≠ []
  alone : ∀ a ∈ spread.values, a.members = [a]
  held : ∀ a ∈ joined.values, ∀ b ∈ a.members, ∃ c ∈ spread.values, b.Alike c
  only : ∀ c ∈ spread.values, ∃ a ∈ joined.values, ∃ b ∈ a.members, b.Alike c

namespace Value.Alike

variable {a b : Value} {heap : Heap} {name : String}

/-- Of values that are no unions, those alike have the same attributes and the same description. -/
theorem reads (h : a.Alike b) (plain : a.members = [a]) :
    a.attribute? heap name = b.attribute? heap name ∧ a.describe heap = b.describe heap := by
  rcases h with rfl | h
  · exact ⟨rfl, rfl⟩
  cases a with
  | union members => exact absurd rfl (Value.ne_union plain members)
  | bound receiver id =>
    cases b <;> simp only [Value.same, Bool.false_eq_true, Bool.and_eq_true, beq_iff_eq] at h
    obtain ⟨-, rfl⟩ := h
    exact ⟨rfl, rfl⟩
  | _ =>
    cases b <;> simp only [Value.same, Bool.false_eq_true, beq_iff_eq] at h
    all_goals first | exact ⟨rfl, rfl⟩ | (subst h; exact ⟨rfl, rfl⟩)

end Value.Alike

/-- An object is like itself only. -/
theorem Value.IsObject.eq_of_alike {a b : Value} (h : a.IsObject) (alike : a.Alike b) : a = b := by
  rcases alike with rfl | same
  · rfl
  · cases a <;> cases h <;> cases b <;>
      simp only [Value.same, Bool.false_eq_true, beq_iff_eq] at same <;> rw [same]

/-! ## Stores through both variables -/

/-- What the first variable holds by itself the second one holds. -/
theorem Variable.Spreads.mem_of_isObject {joined spread : Variable} {a : Value}
    (spreads : joined.Spreads spread) (object : a.IsObject) (h : a ∈ joined.values) :
    a ∈ spread.values := by
  obtain ⟨c, hc, alike⟩ := spreads.held a h a (by rw [object.members]; exact List.mem_cons_self)
  rwa [object.eq_of_alike alike]

/-- Stores through both variables come to the same just where they make nothing of what is held inside
unions only. -/
theorem Variable.Spreads.setAttribute_eq_iff {joined spread : Variable}
    (spreads : joined.Spreads spread) (heap : Heap) (name : String) (v : Variable) :
    heap.setAttribute joined name v = heap.setAttribute spread name v ↔
      ∀ a ∈ spread.values, a ∉ joined.values →
        (heap.object? a).map (Heap.stored name v) = heap.object? a := by
  constructor
  · intro same a held inside
    rw [← Heap.object?_setAttribute_of_mem spreads.spreadDistinct held, ← same,
      Heap.object?_setAttribute_of_not_mem inside]
  · intro nothing
    refine Heap.ext_of_objects (fun a => ?_)
      ((heap.setAttribute_beside joined).trans (heap.setAttribute_beside spread).symm)
    by_cases object : a.IsObject
    case neg => rw [Heap.object?_eq_none object, Heap.object?_eq_none object]
    by_cases outside : a ∈ joined.values
    · rw [Heap.object?_setAttribute_of_mem spreads.joinedDistinct outside,
        Heap.object?_setAttribute_of_mem spreads.spreadDistinct
          (spreads.mem_of_isObject object outside)]
    · rw [Heap.object?_setAttribute_of_not_mem outside]
      by_cases held : a ∈ spread.values
      · rw [Heap.object?_setAttribute_of_mem spreads.spreadDistinct held, nothing a held outside]
      · rw [Heap.object?_setAttribute_of_not_mem held]

/-! ## Reads through both variables -/

namespace Variable.Spreads

variable {joined spread : Variable} {heap : Heap} {name : String} {a : Value}

/-- A value of the first variable is no union, or a union of values that are none. -/
theorem plain_or_union (spreads : joined.Spreads spread) (h : a ∈ joined.values) :
    a.members = [a] ∨ ∃ members, a = .union members ∧ members ≠ [] ∧
      ∀ b ∈ members, b.members = [b] := by
  obtain ⟨flat, inhabited⟩ := spreads.unions a h
  cases a with
  | union members => exact .inr ⟨members, rfl, inhabited, flat⟩
  | _ => exact .inl rfl

theorem members_plain (spreads : joined.Spreads spread) (h : a ∈ joined.values) :
    ∀ b ∈ a.members, b.members = [b] := (spreads.unions a h).1

/-- A member of a value of the first variable has the attributes and the description of some value of
the second one. -/
theorem exists_alike (heap : Heap) (name : String) (spreads : joined.Spreads spread)
    (ha : a ∈ joined.values) {m : Value} (hm : m ∈ a.members) : ∃ c ∈ spread.values,
      c.attribute? heap name = m.attribute? heap name ∧ c.describe heap = m.describe heap := by
  obtain ⟨c, hc, alike⟩ := spreads.held a ha m hm
  obtain ⟨found, described⟩ := alike.reads (spreads.members_plain ha m hm)
  exact ⟨c, hc, found.symm, described.symm⟩

/-- A value of the second variable has the attributes of a member of some value of the first one. -/
theorem exists_member (heap : Heap) (name : String) (spreads : joined.Spreads spread) {c : Value}
    (hc : c ∈ spread.values) : ∃ a ∈ joined.values, ∃ m ∈ a.members,
      m.attribute? heap name = c.attribute? heap name := by
  obtain ⟨a, ha, m, hm, alike⟩ := spreads.only c hc
  exact ⟨a, ha, m, hm, (alike.reads (spreads.members_plain ha m hm)).1⟩

/-- Every value that the first variable gives the second one gives. -/
theorem mem_answers (spreads : joined.Spreads spread) (hold : heap.AttributesHold) {b : Value}
    (h : b ∈ joined.values.flatMap (Value.answers heap name)) :
    b ∈ spread.values.flatMap (Value.answers heap name) := by
  obtain ⟨a, ha, hb⟩ := List.mem_flatMap.mp h
  -- some member of the value gives it, as the value does
  suffices given : ∃ m ∈ a.members, b ∈ m.answers heap name by
    obtain ⟨m, hm, hb⟩ := given
    obtain ⟨c, hc, same, -⟩ := spreads.exists_alike heap name ha hm
    exact List.mem_flatMap.mpr ⟨c, hc, by rwa [Value.answers, same]⟩
  rcases spreads.plain_or_union ha with plain | ⟨members, rfl, inhabited, -⟩
  · exact ⟨a, by rw [plain]; exact List.mem_cons_self, hb⟩
  cases found : (Value.union members).attribute? heap name with
  | none =>
    obtain ⟨m, hm⟩ := List.exists_mem_of_ne_nil _ inhabited
    refine ⟨m, hm, ?_⟩
    rw [Value.answers_of_none found] at hb
    rwa [Value.answers_of_none ((attribute?_union_eq_none_iff hold).mp found m hm)]
  | some w =>
    rw [answers_union found] at hb
    obtain ⟨m, hm, u, known, hb⟩ :=
      mem_attributeValues.mp ((Value.mem_or_mem_of_mem_addNew hb).resolve_left (by simp))
    exact ⟨m, hm, by rwa [Value.answers_of_some known]⟩

/-- What a value of the second variable answers that has the attribute the first one gives. -/
theorem exists_mem_answers (spreads : joined.Spreads spread) (hold : heap.AttributesHold)
    {b c : Value} {w : Variable} (hc : c ∈ spread.values)
    (found : c.attribute? heap name = some w) (hb : b ∈ w.values) :
    ∃ d ∈ joined.values.flatMap (Value.answers heap name), d.Alike b := by
  obtain ⟨a, ha, m, hm, same⟩ := spreads.exists_member heap name hc
  rw [found] at same
  suffices given : ∃ d ∈ a.answers heap name, d.Alike b by
    obtain ⟨d, hd, same⟩ := given
    exact ⟨d, List.mem_flatMap.mpr ⟨a, ha, hd⟩, same⟩
  rcases spreads.plain_or_union ha with plain | ⟨members, rfl, -, -⟩
  · rw [plain, List.mem_singleton] at hm
    subst hm
    exact ⟨b, by rwa [Value.answers_of_some same], .inl rfl⟩
  · -- the union has the attribute, as a member has it
    cases whole : (Value.union members).attribute? heap name with
    | none =>
      rw [(attribute?_union_eq_none_iff hold).mp whole m hm] at same
      cases same
    | some u =>
      rw [answers_union whole]
      exact Value.exists_mem_addNew_or [] (mem_attributeValues.mpr ⟨m, hm, w, same, hb⟩)

/-- The first variable holds some value where the second one does. -/
theorem values_eq_nil_iff (spreads : joined.Spreads spread) :
    joined.values = [] ↔ spread.values = [] := by
  simp only [List.eq_nil_iff_forall_not_mem]
  constructor
  · intro none c hc
    obtain ⟨a, ha, -⟩ := spreads.only c hc
    exact none a ha
  · intro none a ha
    obtain ⟨m, hm⟩ := List.exists_mem_of_ne_nil _ (spreads.unions a ha).2
    obtain ⟨c, hc, -⟩ := spreads.held a ha m hm
    exact none c hc

end Variable.Spreads

/-! ## What both reads give -/

section Gathered

variable {as bs : List Value} {a b : Value}

theorem mem_of_mem_ofValues (some : as ≠ []) (h : a ∈ (Variable.ofValues as).values) : a ∈ as := by
  rw [Variable.values_ofValues, if_neg some] at h
  exact (Value.mem_or_mem_of_mem_addNew h).resolve_left (by simp)

theorem exists_mem_ofValues (h : b ∈ bs) (alike : b.Alike a) :
    ∃ c ∈ (Variable.ofValues bs).values, c.Alike a := by
  obtain ⟨c, hc, first⟩ := Value.exists_mem_addNew_or [] h
  refine ⟨c, by rwa [Variable.values_ofValues, if_neg (List.ne_nil_of_mem h)], ?_⟩
  rcases first with rfl | first
  · exact alike
  · rcases alike with rfl | alike
    · exact .inr first
    · exact .inr (Value.same_trans first alike)

/-- A variable of gathered values includes another one that gathers no others. -/
theorem ofValues_includes (empty : as = [] → bs = [])
    (h : ∀ a ∈ as, ∃ c ∈ (Variable.ofValues bs).values, c.Alike a) :
    (Variable.ofValues bs).Includes (Variable.ofValues as) := by
  intro a ha
  by_cases none : as = []
  · rw [none] at ha
    rw [empty none]
    exact ⟨a, ha, .inl rfl⟩
  · exact h a (mem_of_mem_ofValues none ha)

theorem eq_any_of_alike (h : a.Alike .any) : a = .any := by
  rcases h with rfl | h
  · rfl
  · cases a <;> first | rfl | cases h

end Gathered

namespace Variable.Spreads

variable {joined spread : Variable} {heap : Heap} {name : String}

theorem answers_eq_nil_iff (hold : heap.AttributesHold) {v : Variable} :
    v.values.flatMap (Value.answers heap name) = [] ↔ v.values = [] := by
  rw [List.flatMap_eq_nil_iff]
  refine ⟨fun none => List.eq_nil_iff_forall_not_mem.mpr fun a ha => ?_, fun none => by simp [none]⟩
  have nothing := none a ha
  cases found : a.attribute? heap name with
  | none =>
    rw [Value.answers_of_none found] at nothing
    cases nothing
  | some w =>
    rw [Value.answers_of_some found] at nothing
    exact hold.attribute? found nothing

/-- What the first variable gives is always among what the second one gives. -/
theorem spread_includes (spreads : joined.Spreads spread) (hold : heap.AttributesHold) :
    (Variable.ofValues (spread.values.flatMap (Value.answers heap name))).Includes
      (.ofValues (joined.values.flatMap (Value.answers heap name))) := by
  refine ofValues_includes ?_ fun a ha =>
    exists_mem_ofValues (spreads.mem_answers hold ha) (.inl rfl)
  rw [answers_eq_nil_iff hold, answers_eq_nil_iff hold]
  exact spreads.values_eq_nil_iff.mp

/-- Both variables give the same values just where the first one gives any if a value lacks the
attribute. -/
theorem joined_includes_iff (spreads : joined.Spreads spread) (hold : heap.AttributesHold) :
    (Variable.ofValues (joined.values.flatMap (Value.answers heap name))).Includes
        (.ofValues (spread.values.flatMap (Value.answers heap name))) ↔
      (spread.lacking heap name ≠ [] →
        .any ∈ (Variable.ofValues (joined.values.flatMap (Value.answers heap name))).values) := by
  constructor
  · intro includes lacks
    obtain ⟨c, hc⟩ := List.exists_mem_of_ne_nil _ lacks
    obtain ⟨hc, lacks⟩ := mem_lacking.mp hc
    have given : .any ∈ spread.values.flatMap (Value.answers heap name) :=
      List.mem_flatMap.mpr ⟨c, hc, by rw [Value.answers_of_none lacks]; exact List.mem_cons_self⟩
    obtain ⟨b, hb, alike⟩ := exists_mem_ofValues given (.inl rfl)
    obtain rfl := eq_any_of_alike alike
    obtain ⟨d, hd, alike⟩ := includes .any hb
    obtain rfl := eq_any_of_alike alike
    exact hd
  · intro given
    refine ofValues_includes ?_ fun b hb => ?_
    · rw [answers_eq_nil_iff hold, answers_eq_nil_iff hold]
      exact spreads.values_eq_nil_iff.mpr
    obtain ⟨c, hc, hb⟩ := List.mem_flatMap.mp hb
    cases found : c.attribute? heap name with
    | none =>
      rw [Value.answers_of_none found, List.mem_singleton] at hb
      subst hb
      exact ⟨.any, given (List.ne_nil_of_mem (mem_lacking.mpr ⟨hc, found⟩)), .inl rfl⟩
    | some w =>
      rw [Value.answers_of_some found] at hb
      obtain ⟨d, hd, alike⟩ := spreads.exists_mem_answers hold hc found hb
      exact exists_mem_ofValues hd alike

/-! ## What both reads report -/

/-- Values that are reported alike are described alike. -/
theorem describe_of_missing {s : Execution} {a b : Value}
    (same : (⟨a.missing heap name, s.context.position⟩ : Finding) =
      ⟨b.missing heap name, s.context.position⟩) : a.describe heap = b.describe heap := by
  simpa [Value.missing] using same

/-- Both reads leave the same findings behind just where what lacks the attribute inside unions only
has been reported before, or is described like a value outside that lacks it, and a union that lacks
the attribute as a whole has been reported before. -/
theorem same_findings_iff (spreads : joined.Spreads spread) (s : Execution) (name : String) :
    (∀ finding, finding ∈ (s.reportingLacking name joined).context.log ↔
      finding ∈ (s.reportingLacking name spread).context.log) ↔
    (∀ c ∈ spread.lacking s.context.heap name, s.Reported (c.missing s.context.heap name) ∨
      ∃ a ∈ joined.lacking s.context.heap name, a.members = [a] ∧
        a.describe s.context.heap = c.describe s.context.heap) ∧
    ∀ a ∈ joined.lacking s.context.heap name, a.members ≠ [a] →
      s.Reported (a.missing s.context.heap name) := by
  simp only [Execution.mem_log_reportingLacking]
  generalize s.context.heap = heap
  -- no union is described like a value that is none
  have apart {members : List Value} {c : Value} (hc : c ∈ spread.lacking heap name) :
      c.describe heap ≠ (Value.union members).describe heap :=
    Value.describe_ne_union (spreads.alone c (Variable.mem_lacking.mp hc).1) members
  constructor
  · intro same
    refine ⟨fun c hc => ?_, fun a ha union => ?_⟩
    · rcases (same _).mpr (.inr ⟨c, hc, rfl⟩) with before | ⟨a, ha, alike⟩
      · exact .inl before
      · have described := describe_of_missing alike
        rcases spreads.plain_or_union (Variable.mem_lacking.mp ha).1 with plain | ⟨_, rfl, -⟩
        · exact .inr ⟨a, ha, plain, described.symm⟩
        · exact absurd described (apart hc)
    · rcases spreads.plain_or_union (Variable.mem_lacking.mp ha).1 with plain | ⟨_, rfl, -⟩
      · exact absurd plain union
      · rcases (same _).mp (.inr ⟨_, ha, rfl⟩) with before | ⟨c, hc, alike⟩
        · exact before
        · exact absurd (describe_of_missing alike).symm (apart hc)
  · rintro ⟨inside, whole⟩ finding
    constructor
    · rintro (before | ⟨a, ha, rfl⟩)
      · exact .inl before
      obtain ⟨held, lacks⟩ := Variable.mem_lacking.mp ha
      by_cases plain : a.members = [a]
      · obtain ⟨c, hc, same, described⟩ :=
          spreads.exists_alike heap name held (m := a) (by rw [plain]; exact List.mem_cons_self)
        refine .inr ⟨c, Variable.mem_lacking.mpr ⟨hc, same.trans lacks⟩, ?_⟩
        rw [Value.missing, Value.missing, described]
      · exact .inl (whole a ha plain)
    · rintro (before | ⟨c, hc, rfl⟩)
      · exact .inl before
      rcases inside c hc with before | ⟨a, ha, -, described⟩
      · exact .inl before
      · refine .inr ⟨a, ha, ?_⟩
        rw [Value.missing, Value.missing, described]

end Variable.Spreads

/-! ## Stores and reads together -/

/-- How a store through `joined` compares with the same store through `spread`. -/
structure Variable.StoresCompare (joined spread : Variable) (name : String) (heap : Heap) (v : Variable) :
    Prop where
  /-- A store reaches whatever the variable holds by itself. -/
  reached : ∀ a ∈ spread.values, (heap.setAttribute spread name v).object? a =
    (heap.object? a).map (Heap.stored name v)
  /-- What it holds inside unions only is left alone. -/
  untouched : ∀ a, a ∉ joined.values → (heap.setAttribute joined name v).object? a = heap.object? a
  agree_iff : heap.setAttribute joined name v = heap.setAttribute spread name v ↔
    ∀ a ∈ spread.values, a ∉ joined.values → (heap.object? a).map (Heap.stored name v) = heap.object? a

/-- How a read of `joined`, which gives `x`, compares with the same read of `spread`, which gives `y`. -/
structure Variable.ReadsCompare (joined spread : Variable) (name : String) (s : Execution)
    (x y : Variable) : Prop where
  joined_eq : FrameStep.loadAttribute joined name s = (.ok x, s.reportingLacking name joined)
  spread_eq : FrameStep.loadAttribute spread name s = (.ok y, s.reportingLacking name spread)
  /-- Each value gives what it has, or any if it lacks the attribute. -/
  answers : y = .ofValues (spread.values.flatMap (Value.answers s.context.heap name))
  includes : y.Includes x
  included_iff : x.Includes y ↔ (spread.lacking s.context.heap name ≠ [] → .any ∈ x.values)
  /-- Findings about values inside unions, and about whole unions, are there anyway. -/
  findings_iff : (∀ finding, finding ∈ (s.reportingLacking name joined).context.log ↔
      finding ∈ (s.reportingLacking name spread).context.log) ↔
    (∀ c ∈ spread.lacking s.context.heap name, s.Reported (c.missing s.context.heap name) ∨
      ∃ a ∈ joined.lacking s.context.heap name, a.members = [a] ∧
        a.describe s.context.heap = c.describe s.context.heap) ∧
    ∀ a ∈ joined.lacking s.context.heap name, a.members ≠ [a] →
      s.Reported (a.missing s.context.heap name)

/-- Of two variables that may hold the same values, a store through the one that has each by itself
reaches every instance and built class among them, and a read gives any and reports it for each that
lacks the attribute. A store through the other one leaves out what it holds inside unions, so both
stores agree just where they make nothing of that. It gives no values beside those of the first, and
all of them just where it gives any if some value lacks the attribute. The findings are the same just
where those about values inside unions, and about whole unions, are there anyway. -/
theorem Variable.Spreads.attributes_agree_iff {joined spread : Variable}
    (spreads : joined.Spreads spread) (name : String) :
    (∀ (heap : Heap) (v : Variable), joined.StoresCompare spread name heap v) ∧
    ∀ s : Execution, s.context.heap.AttributesHold → ∃ x y, joined.ReadsCompare spread name s x y := by
  constructor
  · intro heap v
    exact
      { reached := fun a => Heap.object?_setAttribute_of_mem spreads.spreadDistinct
        untouched := fun a => Heap.object?_setAttribute_of_not_mem
        agree_iff := spreads.setAttribute_eq_iff heap name v }
  · intro s hold
    exact ⟨_, _,
      { joined_eq := FrameStep.loadAttribute_eq
        spread_eq := FrameStep.loadAttribute_eq
        answers := rfl
        includes := spreads.spread_includes hold
        included_iff := spreads.joined_includes_iff hold
        findings_iff := spreads.same_findings_iff s name }⟩

/-- A union and the variable of its members. -/
theorem Variable.spreads_union {members : List Value} (inhabited : members ≠ [])
    (plain : ∀ a ∈ members, a.members = [a])
    (distinct : members.Pairwise fun a b => a.same b = false) :
    (Value.union members).var.Spreads (.ofValues members) := by
  have values : (Variable.ofValues members).values = members := by
    rw [values_ofValues, if_neg inhabited, Value.addNew_of_pairwise [] distinct]
    rfl
  constructor
  case joinedDistinct => exact List.pairwise_singleton _ _
  case spreadDistinct => rwa [values]
  case unions =>
    rintro _ h
    obtain rfl := List.mem_singleton.mp h
    exact ⟨plain, inhabited⟩
  case alone => rwa [values]
  case held =>
    rintro _ h b hb
    obtain rfl := List.mem_singleton.mp h
    exact ⟨b, by rwa [values], .inl rfl⟩
  case only =>
    intro c hc
    rw [values] at hc
    exact ⟨_, List.mem_cons_self, c, hc, .inl rfl⟩

namespace Machine

/-- The code of a module that keeps one of two instances as a member of a class, stores an attribute
through that member and reads it through the name of the instances. -/
def keepingModule : Code :=
  let empty (name : String) : Code := (CodeBuilder.classBody name).returnNone.build
  let classes := (((CodeBuilder.module.defClass (empty "A") "A" []).defClass (empty "B") "B" []).defClass
    (empty "C") "C" [])
  let made (b : CodeBuilder) (cls : String) : CodeBuilder :=
    (((b.op .pushNull).op (.loadName cls)).op (.call 0)).op (.storeName "x")
  let first := made ((classes.op (.loadName "__name__")).op (.popJumpIfFalse 2)).newBlock "A"
  let second := made (first.op (.jumpForward 3)).newBlock "B"
  let kept := ((second.newBlock.op (.loadName "x")).op (.loadName "C")).op (.storeAttr "m")
  let stored := (((kept.loadConst (.int 1)).op (.loadName "C")).op (.loadAttr "m")).op (.storeAttr "v")
  (((stored.op (.loadName "x")).op (.loadAttr "v")).op (.storeName "y")).returnNone.build

/-- The two instances that `keepingModule` makes. -/
def keptInstances : List Value := [.instanceObject ⟨0⟩, .instanceObject ⟨1⟩]

theorem keptInstances_spreads : (Value.union keptInstances).var.Spreads (.ofValues keptInstances) :=
  Variable.spreads_union (by simp [keptInstances]) (by simp [keptInstances, Value.members])
    (by simp [keptInstances, Value.same])

/-- What is said of stores and reads holds of the instances of this module, joined in the member and
one by one under their name. -/
theorem keepingModule_attributes : ∃ id m,
    runModule keepingModule (.new .standard) = (.ok id, m) ∧
      (Value.union keptInstances).var.Spreads (.ofValues keptInstances) ∧
      m.context.heap.AttributesHold ∧
      (∀ a ∈ (Variable.ofValues keptInstances).values,
        (m.context.heap.setAttribute (.ofValues keptInstances) "v" Value.noneObject.var).object? a =
          (m.context.heap.object? a).map (Heap.stored "v" Value.noneObject.var)) ∧
      ∃ x y u v,
        FrameStep.loadAttribute (Value.union keptInstances).var "v"
          ⟨m.context.heap.frameAt id, m.context⟩ = (.ok x, u) ∧
        FrameStep.loadAttribute (.ofValues keptInstances) "v"
          ⟨m.context.heap.frameAt id, m.context⟩ = (.ok y, v) ∧ y.Includes x := by
  obtain ⟨id, m, run⟩ := Step.exists_of_isOk
    (r := runModule keepingModule (.new .standard)) (by decide +kernel)
  have filled : m.Filled := by
    have kept := (runModuleWith_leads (Evaluator.atDepth_safe depthLimit) (filled_new .standard) rfl
      keepingModule).kept
    have same : runModuleWith (.atDepth depthLimit) keepingModule (.new .standard) = (.ok id, m) := run
    rwa [same] at kept
  have hold : m.context.heap.AttributesHold := Heap.Filled.attributesHold filled
  obtain ⟨stores, reads⟩ := Variable.Spreads.attributes_agree_iff keptInstances_spreads "v"
  obtain ⟨x, y, compare⟩ := reads ⟨m.context.heap.frameAt id, m.context⟩ hold
  exact ⟨id, m, run, keptInstances_spreads, hold, (stores m.context.heap Value.noneObject.var).reached,
    x, y, _, _, compare.joined_eq, compare.spread_eq, compare.includes⟩

/-- A store through the member is lost, a store through the name reaches both instances, and reads
through the two report different findings. The module itself ends with both reports and knows nothing
of the attribute. -/
theorem keepingModule_loses : ∃ id m,
    runModule keepingModule (.new .standard) = (.ok id, m) ∧
      ((m.context.heap.classAt ⟨23⟩).members.get? "m").any (· == .union keptInstances) = true ∧
      ((m.context.heap.frameAt id).finalLocals.get? "x").any (· == .ofValues keptInstances) = true ∧
      (Value.union keptInstances).var.Spreads (.ofValues keptInstances) ∧
      m.context.heap.setAttribute (Value.union keptInstances).var "v" Value.noneObject.var =
        m.context.heap ∧
      m.context.heap.setAttribute (.ofValues keptInstances) "v" Value.noneObject.var ≠
        m.context.heap ∧
      (¬ ∀ finding,
        finding ∈ (FrameStep.loadAttribute (Value.union keptInstances).var "v"
          ⟨m.context.heap.frameAt id, m.context⟩).2.context.log ↔
        finding ∈ (FrameStep.loadAttribute (.ofValues keptInstances) "v"
          ⟨m.context.heap.frameAt id, m.context⟩).2.context.log) ∧
      m.context.log.map (·.kind) =
        [.attributeError "<A instance>" "v", .attributeError "<B instance>" "v"] ∧
      ((m.context.heap.frameAt id).finalLocals.get? "y").any (· == Value.any.var) = true := by
  obtain ⟨id, m, run⟩ := Step.exists_of_isOk
    (r := runModule keepingModule (.new .standard)) (by decide +kernel)
  have hm : m = (runModule keepingModule (.new .standard)).2 := by rw [run]
  have hid : id = ⟨3⟩ := by
    have known : (runModule keepingModule (.new .standard)).1.toOption = some ⟨3⟩ := by decide +kernel
    rw [run] at known
    exact Option.some.inj known
  subst hid
  refine ⟨⟨3⟩, m, run, ?_, ?_, keptInstances_spreads, rfl, fun same => ?_, fun same => ?_, ?_, ?_⟩
  case refine_3 =>
    have stored := congrArg
      (fun heap => ((heap.instanceAt ⟨0⟩).members.get? "v").isSome) same
    rw [hm] at stored
    exact absurd stored (by decide +kernel)
  case refine_4 =>
    have within := fun finding h => (same finding).mp h
    rw [hm] at within
    exact absurd within (by decide +kernel)
  all_goals
    rw [hm]
    decide +kernel

end Machine

end StubInference
