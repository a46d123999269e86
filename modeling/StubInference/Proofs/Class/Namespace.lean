import StubInference.Proofs.Run.Classes

/-!
# Classes of a namespace

A hook is handed the bases of a class as a tuple and the names that the body bound as a dictionary.
When it passes them on to `type.__new__` they are read back. The bases and the names come back as
they were, and so do the values unless one of them is a union that was never joined.

## Main definitions

* `Value.Settled` — a value that joining gives back
* `Heap.namespaceClass` — the class that `type` makes of a name, bases and a namespace

## Main results

* `Value.settled_joined` — what a variable of flat unions holds is settled
* `Heap.namespaceMembers?_namespaceDict` — a namespace that is read back
* `Heap.typeCallClass?_handed` — the class that `type.__new__` makes of what a hook is handed
-/

namespace StubInference

/-! ## Joins of one value -/

namespace Value

/-- A value that joining gives back. -/
def Settled (a : Value) : Prop := Value.join [a] = a

/-- A value whose members, if it is a union, are no unions. -/
def Flat (a : Value) : Prop := ∀ b ∈ a.members, b.members = [b]

/-- Distinct values are appended as they are. -/
theorem addNew_of_pairwise (known : List Value) {values : List Value}
    (distinct : (known ++ values).Pairwise fun a b => a.same b = false) :
    addNew known values = known ++ values := by
  rw [addNew_eq_gatherBy]
  exact gatherBy_of_pairwise distinct

/-- A union of two or more distinct values is settled. -/
theorem settled_union {members : List Value} (several : 2 ≤ members.length)
    (distinct : members.Pairwise fun a b => a.same b = false) : (union members).Settled := by
  have joined : Value.join [union members] = ofMembers members := by
    simp [Value.join, Value.members, addNew_of_pairwise [] distinct]
  rcases members with _ | ⟨a, _ | ⟨b, rest⟩⟩
  · cases several
  · simp at several
  · exact joined

theorem settled_of_members {a : Value} (h : a.members = [a]) : a.Settled := by
  simp [Settled, Value.join, h, addNew, ofMembers]

/-- What a join of flat unions gives is settled. -/
theorem settled_join {values : List Value} (flat : ∀ a ∈ values, a.Flat) :
    (Value.join values).Settled := by
  have distinct : (addNew [] (values.flatMap members)).Pairwise fun a b => a.same b = false :=
    pairwise_addNew .nil
  have plain : ∀ b ∈ addNew [] (values.flatMap members), b.members = [b] := by
    intro b hb
    rcases mem_or_mem_of_mem_addNew hb with hb | hb
    · cases hb
    · obtain ⟨a, ha, hab⟩ := List.mem_flatMap.mp hb
      exact flat a ha b hab
  -- no value, one, or a union of several
  unfold Value.join
  generalize addNew [] (values.flatMap members) = known at distinct plain
  rcases known with _ | ⟨a, _ | ⟨b, rest⟩⟩
  · rfl
  · exact settled_of_members (plain a (by simp))
  · exact settled_union (by simp) distinct

end Value

theorem Variable.settled_joined {v : Variable} (flat : ∀ a ∈ v.values, a.Flat) :
    v.joined.Settled := Value.settled_join flat

/-! ## What a hook is handed -/

namespace NameMap

variable {α : Type} {name : String} {a : α}

theorem erase_cons_self {rest : NameMap α} (new : name ∉ rest.names) :
    NameMap.erase ((name, a) :: rest) name = rest := by
  have others : ∀ entry ∈ rest, decide (entry.1 ≠ name) = true := fun entry hentry =>
    decide_eq_true fun same => new (same ▸ List.mem_map_of_mem hentry)
  rw [erase, List.filter_cons_of_neg (by simp), List.filter_eq_self.mpr others]

end NameMap

namespace Heap

variable {heap : Heap} {members : NameMap Value} {name : String} {bases : List ClassId}

/-- The classes among the values of a namespace that were built, in their order. -/
def builtClasses (heap : Heap) (members : NameMap Value) : List ClassId :=
  (members.values.filterMap Value.asClass?).filter heap.isBuilt

/-- The class that `type` makes of a name, bases and a namespace. -/
def namespaceClass (heap : Heap) (name : String) (bases : List ClassId) (members : NameMap Value)
    (metaclass : Option ClassId) : ClassInfo :=
  .built name bases members metaclass
    ⟨[], (members.values.filterMap Value.asFunction?).filter heap.isInterpreted,
      heap.builtClasses members⟩

/-- The names of a namespace come back, each with the join of its value. -/
theorem namespaceMembers?_namespaceDict (distinct : members.names.Nodup) :
    namespaceMembers? (namespaceDict members).var =
      some (members.mapValues fun a => Value.join [a]) := by
  -- the keys are literals, so they are read back one by one
  have read (members : NameMap Value) :
      ((members.map fun entry => ((Value.literal (.str entry.1)).var, entry.2.var)).mapM
        fun pair => do Pure.pure (← pair.1.literal .str, pair.2)) =
        (.ok (members.mapValues Value.var) : Except Fault (NameMap Variable)) := by
    induction members with
    | nil => rfl
    | cons entry rest ih =>
      rw [List.map_cons, List.mapM_cons, ih]
      rfl
  have named : namedEntries (some (members.map fun entry =>
      ((Value.literal (.str entry.1)).var, entry.2.var))) =
        .ok (some (members.mapValues Value.var)) := by
    have distinct' : (NameMap.names (members.mapValues Value.var)).Nodup := by
      rwa [NameMap.names_mapValues]
    refine Except.bind_eq_ok.mpr ⟨_, read members, ?_⟩
    exact congrArg (fun map => Except.ok (some map)) (NameMap.ofEntries_of_nodup distinct')
  have held : (namespaceDict members).var.atomic? = some (.dict (some (members.map fun entry =>
      ((Value.literal (.str entry.1)).var, entry.2.var)))) := rfl
  rw [namespaceMembers?, held, Option.bind_eq_bind, Option.bind_some]
  dsimp only
  rw [named]
  change some ((members.mapValues Value.var).mapValues Variable.joined) = _
  simp only [NameMap.mapValues, List.map_map]
  rfl

/-- The bases come back. -/
theorem classTuple?_tuple {className : String} {vars : List Variable}
    (classes : vars.mapM (ClassPlan.base className) = .ok bases) :
    classTuple? (Value.tuple (some vars)).var = some bases := by
  have one {v : Variable} {cls : ClassId} (h : ClassPlan.base className v = .ok cls) :
      v.atomic?.bind Value.asClass? = some cls := by
    unfold ClassPlan.base at h
    split at h <;> cases h
    case h_1 atomic => rw [atomic]; rfl
  change vars.mapM (fun v => v.atomic?.bind Value.asClass?) = some bases
  induction vars generalizing bases with
  | nil =>
    cases classes
    rfl
  | cons v rest ih =>
    rw [List.mapM_cons] at classes ⊢
    obtain ⟨cls, hv, classes⟩ := Except.bind_eq_ok.mp classes
    obtain ⟨others, hrest, classes⟩ := Except.bind_eq_ok.mp classes
    cases classes
    rw [one hv, ih hrest]
    rfl

/-- `type.__new__` makes of what a hook is handed the class of the namespace. -/
theorem typeCallClass?_handed {metaclass : ClassId} {nameVar : Variable} {vars : List Variable}
    {frame : Option Surroundings} (named : nameVar.literal .str = .ok name)
    (classes : vars.mapM (ClassPlan.base name) = .ok bases) (distinct : members.names.Nodup)
    (derived : metaclass ≠ Builtins.type) :
    heap.typeCallClass? { Args.empty with
      positional := [(Value.classObject metaclass).var, nameVar, (Value.tuple (some vars)).var,
        (namespaceDict members).var]
      frame } =
      some (heap.namespaceClass name bases (members.mapValues fun a => Value.join [a])
        (some metaclass)) := by
  -- `type` itself is not recorded as a metaclass
  have kept : (some metaclass).filter (· ≠ Builtins.type) = some metaclass := by
    simpa [Option.filter] using derived
  simp only [typeCallClass?, bind, Option.bind_eq_some_iff]
  refine ⟨_, rfl, name, by rw [named]; rfl, bases, classTuple?_tuple classes, _,
    namespaceMembers?_namespaceDict distinct, ?_⟩
  rw [← kept]
  rfl

end Heap

end StubInference
