import StubInference.Proofs.Stub.WellFormed

/-!
# The laws of joined types

Types are joined by gathering what they hold in the order of first occurrence. The type without values
adds nothing, the type of everything absorbs all others, and what remains makes up a union only where two
different types are left. A join does not depend on how the types are put into groups, a group of no type
at all included, and joining a type with itself gives it back.

Most laws look at the outermost union only: its members must be types that a union may have. The laws
about the form of a join look at all depths.

## Main definitions

* `Stub.TypeExpr.Flat` — a type whose outermost union has proper members
* `Stub.TypeExpr.Reduced` — a type whose unions, at any depth, have two or more different proper members
* `Stub.TypeExpr.IsUnionOf` — what joining some types has to give

## Main results

* `Stub.TypeExpr.unionAll_unionAll` — types can be joined in groups
* `Stub.TypeExpr.isUnionOf_unionAll` — what a join is
* `Stub.TypeExpr.unionAll_laws` — all laws together
-/

namespace StubInference.Stub.TypeExpr

variable {ty : TypeExpr} {types : List TypeExpr}

/-! ## Members -/

/-- A type that is no union, or a union whose members may all stand in one. -/
def Flat : TypeExpr → Prop
  | .union members => ∀ ty ∈ members, ty.IsMember
  | _ => True

theorem IsMember.ne_anything (h : ty.IsMember) : ty ≠ .anything := by
  rintro rfl
  exact h

theorem IsMember.flat (h : ty.IsMember) : ty.Flat := by
  cases ty with
  | union => exact h.elim
  | _ => trivial

theorem IsMember.members_eq (h : ty.IsMember) : ty.members = [ty] := by
  cases ty with
  | anything | nothing | union => exact h.elim
  | _ => rfl

theorem Flat.mem_members (flat : ty.Flat) : ∀ other ∈ ty.members, other = .anything ∨ other.IsMember := by
  cases ty with
  | nothing => exact List.forall_mem_nil _
  | anything => exact List.forall_mem_singleton.mpr (.inl rfl)
  | named | generic | callable => exact List.forall_mem_singleton.mpr (.inr trivial)
  | union members => exact fun other hother => .inr (flat other hother)

theorem Flat.anything_mem_members (flat : ty.Flat) : .anything ∈ ty.members ↔ ty = .anything := by
  cases ty with
  | union members =>
    constructor
    · intro h
      exact absurd rfl (flat _ h).ne_anything
    · intro h
      cases h
  | _ => simp [members]

theorem anything_mem_flatMap (flat : ∀ ty ∈ types, ty.Flat) :
    .anything ∈ types.flatMap members ↔ .anything ∈ types := by
  rw [List.mem_flatMap]
  constructor
  · rintro ⟨ty, hty, part⟩
    obtain rfl := (flat ty hty).anything_mem_members.mp part
    exact hty
  · intro h
    exact ⟨.anything, h, List.mem_singleton_self _⟩

theorem isMember_of_mem_flatMap (flat : ∀ ty ∈ types, ty.Flat) (bounded : .anything ∉ types) :
    ∀ ty ∈ types.flatMap members, ty.IsMember := by
  intro ty hty
  obtain ⟨whole, hwhole, part⟩ := List.mem_flatMap.mp hty
  obtain rfl | member := (flat whole hwhole).mem_members ty part
  · exact absurd ((anything_mem_flatMap flat).mp hty) bounded
  · exact member

/-- Proper members are those of the type that they make up. -/
theorem members_ofMembers (proper : ∀ ty ∈ types, ty.IsMember) : (ofMembers types).members = types := by
  rcases types with _ | ⟨a, _ | ⟨b, rest⟩⟩
  · rfl
  · exact (proper a (List.mem_singleton_self a)).members_eq
  · rfl

theorem flat_ofMembers (proper : ∀ ty ∈ types, ty.IsMember) : (ofMembers types).Flat := by
  rcases types with _ | ⟨a, _ | ⟨b, rest⟩⟩
  · exact trivial
  · exact (proper a (List.mem_singleton_self a)).flat
  · exact proper

/-! ## Joins -/

/-- The different members that types bring into a join. -/
def gathered (types : List TypeExpr) : List TypeExpr := gatherBy (· == ·) [] (types.flatMap members)

theorem unionAll_of_mem (every : .anything ∈ types) : unionAll types = .anything := by
  unfold unionAll
  rw [if_pos]
  exact List.mem_flatMap.mpr ⟨.anything, every, List.mem_singleton_self _⟩

/-- A join depends on the gathered members only. -/
theorem unionAll_eq (types : List TypeExpr) :
    unionAll types = if .anything ∈ gathered types then .anything else ofMembers (gathered types) := by
  have mem : .anything ∈ gathered types ↔ .anything ∈ types.flatMap members :=
    mem_gatherBy_beq.trans (or_iff_right List.not_mem_nil)
  unfold unionAll
  dsimp only
  rw [if_congr mem rfl rfl, addNew_eq_gatherBy]
  rfl

/-- Where equal objects have the same types, those of one of them stand for all in a join. -/
theorem unionAll_flatMap_gatherBy {α : Type} {same : α → α → Bool} {types : α → List TypeExpr}
    (congr : ∀ a b, same a b = true → types a = types b) (items : List α) :
    unionAll ((gatherBy same [] items).flatMap types) = unionAll (items.flatMap types) := by
  have alike : gathered ((gatherBy same [] items).flatMap types) = gathered (items.flatMap types) := by
    unfold gathered
    rw [List.flatMap_assoc, List.flatMap_assoc]
    exact gatherBy_flatMap_congr (fun a b h => by rw [congr a b h]) [] [] items
  rw [unionAll_eq, unionAll_eq, alike]

/-- Where equal objects have the same type, one of them stands for all in a join. -/
theorem unionAll_map_gatherBy {α : Type} {same : α → α → Bool} {type : α → TypeExpr}
    (congr : ∀ a b, same a b = true → type a = type b) (items : List α) :
    unionAll ((gatherBy same [] items).map type) = unionAll (items.map type) := by
  rw [List.map_eq_flatMap, List.map_eq_flatMap]
  exact unionAll_flatMap_gatherBy (fun a b h => by rw [congr a b h]) items

section Flat

variable (flat : ∀ ty ∈ types, ty.Flat)
include flat

theorem unionAll_of_not_mem (bounded : .anything ∉ types) : unionAll types = ofMembers (gathered types) := by
  unfold unionAll
  rw [if_neg fun every => bounded ((anything_mem_flatMap flat).mp every), addNew_eq_gatherBy]
  rfl

theorem isMember_of_mem_gathered (bounded : .anything ∉ types) : ∀ ty ∈ gathered types, ty.IsMember := by
  intro ty hty
  have brought := (mem_gatherBy_beq.mp hty).resolve_left List.not_mem_nil
  exact isMember_of_mem_flatMap flat bounded ty brought

theorem members_unionAll (bounded : .anything ∉ types) : (unionAll types).members = gathered types := by
  rw [unionAll_of_not_mem flat bounded]
  exact members_ofMembers (isMember_of_mem_gathered flat bounded)

theorem unionAll_eq_anything_iff : unionAll types = .anything ↔ .anything ∈ types := by
  constructor
  · intro h
    by_contra bounded
    -- the members of a join that nothing absorbs are all proper
    have every : .anything ∈ gathered types := by
      rw [← members_unionAll flat bounded, h]
      exact List.mem_singleton_self _
    exact (isMember_of_mem_gathered flat bounded _ every).ne_anything rfl
  · exact unionAll_of_mem

theorem flat_unionAll : (unionAll types).Flat := by
  by_cases every : .anything ∈ types
  · rw [unionAll_of_mem every]
    exact trivial
  · rw [unionAll_of_not_mem flat every]
    exact flat_ofMembers (isMember_of_mem_gathered flat every)

end Flat

/-- A type that is no union and not the type of nothing is the join of itself alone. -/
theorem unionAll_singleton (single : ty = .anything ∨ ty.IsMember) : unionAll [ty] = ty := by
  obtain rfl | proper := single
  · exact unionAll_of_mem (List.mem_singleton_self _)
  · have bounded : .anything ∉ [ty] := fun h => proper.ne_anything (List.mem_singleton.mp h).symm
    rw [unionAll_of_not_mem (List.forall_mem_singleton.mpr proper.flat) bounded, gathered,
      List.flatMap_singleton, proper.members_eq]
    rfl

/-- Types can be joined in groups, and groups of no type at all add nothing. -/
theorem unionAll_unionAll {groups : List (List TypeExpr)}
    (flat : ∀ group ∈ groups, ∀ ty ∈ group, ty.Flat) :
    unionAll (groups.map unionAll) = unionAll groups.flatten := by
  have flatJoins : ∀ ty ∈ groups.map unionAll, ty.Flat :=
    List.forall_mem_map.mpr fun group hgroup => flat_unionAll (flat group hgroup)
  have flatAll : ∀ ty ∈ groups.flatten, ty.Flat := by
    intro ty hty
    obtain ⟨group, hgroup, member⟩ := List.mem_flatten.mp hty
    exact flat group hgroup ty member
  -- a join is the type of everything just where one of its group is
  have absorbs : .anything ∈ groups.map unionAll ↔ .anything ∈ groups.flatten := by
    rw [List.mem_map, List.mem_flatten]
    refine exists_congr fun group => and_congr_right fun hgroup => ?_
    exact unionAll_eq_anything_iff (flat group hgroup)
  by_cases every : .anything ∈ groups.flatten
  · rw [unionAll_of_mem every, unionAll_of_mem (absorbs.mpr every)]
  · rw [unionAll_of_not_mem flatAll every, unionAll_of_not_mem flatJoins (mt absorbs.mp every)]
    have bounded (group : List TypeExpr) (hgroup : group ∈ groups) : .anything ∉ group :=
      fun h => every (List.mem_flatten.mpr ⟨group, hgroup, h⟩)
    have brought : (groups.map unionAll).flatMap members =
        groups.flatMap fun group => gatherBy (· == ·) [] (group.flatMap members) := by
      rw [List.flatMap_map]
      exact List.flatMap_congr fun group h => members_unionAll (flat group h) (bounded group h)
    rw [gathered, gathered, brought, gatherBy_flatMap transitive_beq, List.flatten_eq_flatMap,
      List.flatMap_assoc]
    rfl

/-- A type is joined with a join by joining it with all that went in. -/
theorem unionAll_concat (flat : ∀ ty ∈ types, ty.Flat) (ty : TypeExpr) :
    unionAll [unionAll types, ty] = unionAll (types ++ [ty]) := by
  by_cases every : .anything ∈ types
  · rw [unionAll_of_mem every, unionAll_of_mem List.mem_cons_self,
      unionAll_of_mem (List.mem_append_left _ every)]
  · have brought : gathered [unionAll types, ty] = gathered (types ++ [ty]) := by
      unfold gathered
      rw [List.flatMap_cons, members_unionAll flat every, gathered, List.flatMap_append, gatherBy_append,
        gatherBy_gatherBy transitive_beq, ← gatherBy_append]
      rfl
    rw [unionAll_eq [unionAll types, ty], unionAll_eq (types ++ [ty]), brought]

/-! ## Reduced types -/

/-- A type whose unions, at any depth, have two or more different members, none of which is a union, the
type of everything or the type of nothing. -/
inductive Reduced : TypeExpr → Prop
  | anything : Reduced .anything
  | nothing : Reduced .nothing
  | named (name : String) : Reduced (.named name)
  | generic {base : String} {parameters : List TypeExpr} (all : ∀ ty ∈ parameters, Reduced ty) :
    Reduced (.generic base parameters)
  | callable {result : TypeExpr} (returns : Reduced result) : Reduced (.callable result)
  | union {members : List TypeExpr} (several : 2 ≤ members.length) (distinct : members.Nodup)
    (proper : ∀ ty ∈ members, ty.IsMember) (all : ∀ ty ∈ members, Reduced ty) :
    Reduced (.union members)

namespace Reduced

theorem flat (h : ty.Reduced) : ty.Flat := by
  cases h with
  | union _ _ proper _ => exact proper
  | _ => trivial

theorem nodup_members (h : ty.Reduced) : ty.members.Nodup := by
  cases h with
  | nothing => exact List.nodup_nil
  | union _ distinct _ _ => exact distinct
  | _ => exact List.nodup_singleton _

theorem all_members (h : ty.Reduced) : ∀ other ∈ ty.members, other.Reduced := by
  cases h with
  | nothing => exact List.forall_mem_nil _
  | union _ _ _ all => exact all
  | anything => exact List.forall_mem_singleton.mpr .anything
  | named name => exact List.forall_mem_singleton.mpr (.named name)
  | generic all => exact List.forall_mem_singleton.mpr (.generic all)
  | callable returns => exact List.forall_mem_singleton.mpr (.callable returns)

theorem members_eq_nil_iff (h : ty.Reduced) : ty.members = [] ↔ ty = .nothing := by
  cases h with
  | union several _ _ _ =>
    have some := List.ne_nil_of_length_pos (Nat.lt_of_lt_of_le Nat.two_pos several)
    exact iff_of_false some nofun
  | _ => simp [members]

/-- The members of a reduced type make it up. -/
theorem ofMembers_members (h : ty.Reduced) : ofMembers ty.members = ty := by
  cases h with
  | @union members several _ _ _ =>
    rcases members with _ | ⟨a, _ | ⟨b, rest⟩⟩
    · cases several
    · simp at several
    · rfl
  | _ => rfl

end Reduced

/-- Different proper members make up a reduced type. -/
theorem reduced_ofMembers (distinct : types.Nodup) (proper : ∀ ty ∈ types, ty.IsMember)
    (all : ∀ ty ∈ types, ty.Reduced) : (ofMembers types).Reduced := by
  rcases types with _ | ⟨a, _ | ⟨b, rest⟩⟩
  · exact .nothing
  · exact all a (List.mem_singleton_self a)
  · exact .union (by simp) distinct proper all

/-! ## What a join is -/

/-- What joining some types has to give. The members of a type are those of a union, none for the type
without values, and the type itself otherwise. -/
structure IsUnionOf (joined : TypeExpr) (types : List TypeExpr) : Prop where
  /-- Unions in it, at any depth, have two or more different proper members. -/
  reduced : joined.Reduced
  /-- The type of everything absorbs all others, and nothing else gives it. -/
  anything : joined = .anything ↔ .anything ∈ types
  /-- The type of nothing is the join of itself only. -/
  nothing : joined = .nothing ↔ ∀ ty ∈ types, ty = .nothing
  /-- Otherwise the members are those of the types, in the order in which they first occur. -/
  members : .anything ∉ types → joined.members = firstOccurrences (· == ·) (types.flatMap members)

section Joined

variable (reduced : ∀ ty ∈ types, ty.Reduced)
include reduced

theorem reduced_unionAll : (unionAll types).Reduced := by
  have flat : ∀ ty ∈ types, ty.Flat := fun ty hty => (reduced ty hty).flat
  by_cases every : .anything ∈ types
  · rw [unionAll_of_mem every]
    exact .anything
  · rw [unionAll_of_not_mem flat every]
    apply reduced_ofMembers
    · unfold gathered
      rw [gatherBy_nil transitive_beq]
      exact nodup_firstOccurrences_beq _
    · exact isMember_of_mem_gathered flat every
    · intro ty hty
      have brought := (mem_gatherBy_beq.mp hty).resolve_left List.not_mem_nil
      obtain ⟨whole, hwhole, part⟩ := List.mem_flatMap.mp brought
      exact (reduced whole hwhole).all_members ty part

theorem unionAll_eq_nothing_iff : unionAll types = .nothing ↔ ∀ ty ∈ types, ty = .nothing := by
  have flat : ∀ ty ∈ types, ty.Flat := fun ty hty => (reduced ty hty).flat
  by_cases every : .anything ∈ types
  · rw [unionAll_of_mem every]
    exact iff_of_false nofun fun all => nomatch all _ every
  · rw [← (reduced_unionAll reduced).members_eq_nil_iff, members_unionAll flat every]
    constructor
    · intro none ty hty
      by_contra some
      -- a type that is not the type of nothing has a member, which is among those gathered
      obtain ⟨member, hmember⟩ :=
        List.exists_mem_of_ne_nil _ (mt (reduced ty hty).members_eq_nil_iff.mp some)
      have there : member ∈ gathered types :=
        mem_gatherBy_beq.mpr (.inr (List.mem_flatMap.mpr ⟨ty, hty, hmember⟩))
      rw [none] at there
      cases there
    · intro all
      have nothing : types.flatMap members = [] :=
        List.flatMap_eq_nil_iff.mpr fun ty hty => (reduced ty hty).members_eq_nil_iff.mpr (all ty hty)
      rw [gathered, nothing]
      rfl

theorem isUnionOf_unionAll : (unionAll types).IsUnionOf types where
  reduced := reduced_unionAll reduced
  anything := unionAll_eq_anything_iff fun ty hty => (reduced ty hty).flat
  nothing := unionAll_eq_nothing_iff reduced
  members bounded := by
    rw [members_unionAll (fun ty hty => (reduced ty hty).flat) bounded]
    exact gatherBy_nil transitive_beq _

end Joined

/-- Joining a type with itself gives it back. -/
theorem unionAll_replicate (reduced : ty.Reduced) (n : Nat) :
    unionAll (List.replicate (n + 1) ty) = ty := by
  have copies : ∀ other ∈ List.replicate (n + 1) ty, other = ty :=
    fun other hother => List.eq_of_mem_replicate hother
  by_cases every : ty = .anything
  · rw [every]
    exact unionAll_of_mem List.mem_cons_self
  · have bounded : .anything ∉ List.replicate (n + 1) ty := fun h => every (copies _ h).symm
    have flat : ∀ other ∈ List.replicate (n + 1) ty, other.Flat :=
      fun other hother => copies other hother ▸ reduced.flat
    -- the first copy brings all members, and the others find them there
    have first : gatherBy (· == ·) [] ty.members = ty.members := by
      rw [gatherBy_nil transitive_beq, firstOccurrences_of_nodup reduced.nodup_members]
    have later : (List.replicate n ty).flatMap members ⊆ ty.members := by
      intro member hmember
      obtain ⟨other, hother, part⟩ := List.mem_flatMap.mp hmember
      rwa [List.eq_of_mem_replicate hother] at part
    rw [unionAll_of_not_mem flat bounded, gathered, List.replicate_succ, List.flatMap_cons,
      gatherBy_append, first, gatherBy_of_subset later, reduced.ofMembers_members]

/-! ## All laws -/

/-- Joining reduced types gives just their members in a reduced type, two lists of types can be joined
each on its own first, and a type joined with itself stays as it is. -/
theorem unionAll_laws :
    (∀ types : List TypeExpr, (∀ ty ∈ types, ty.Reduced) → (unionAll types).IsUnionOf types) ∧
    (∀ types more : List TypeExpr, (∀ ty ∈ types ++ more, ty.Reduced) →
      unionAll (types ++ more) = unionAll [unionAll types, unionAll more]) ∧
    ∀ ty : TypeExpr, ty.Reduced → ∀ n, unionAll (List.replicate (n + 1) ty) = ty := by
  refine ⟨?_, ?_, ?_⟩
  · exact fun types reduced => isUnionOf_unionAll reduced
  · intro types more reduced
    obtain ⟨here, there⟩ := List.forall_mem_append.mp reduced
    have groups : ∀ group ∈ [types, more], ∀ ty ∈ group, ty.Flat :=
      List.forall_mem_cons.mpr ⟨fun ty hty => (here ty hty).flat,
        List.forall_mem_singleton.mpr fun ty hty => (there ty hty).flat⟩
    have joined := unionAll_unionAll groups
    rw [List.flatten_cons, List.flatten_cons, List.flatten_nil, List.append_nil] at joined
    exact joined.symm
  · exact fun ty reduced n => unionAll_replicate reduced n

/-- A union is joined with one of its members, the type of nothing and a class with parameters. -/
theorem unionAll_laws_of_union :
    let both := union [builtin "int", none]
    let items := generic "builtins.list" [both]
    let types := [both, nothing, none]
    let more := [items, builtin "int"]
    (unionAll types).IsUnionOf types ∧
      unionAll (types ++ more) = unionAll [unionAll types, unionAll more] ∧
      unionAll (types ++ more) = union [builtin "int", none, items] ∧ unionAll [both, both] = both := by
  intro both items types more
  obtain ⟨joins, groups, again⟩ := unionAll_laws
  have two : both.Reduced := by
    refine .union (by decide) (by decide) ?_ ?_
    · simp [IsMember, builtin, none]
    · simp [Reduced.named, builtin, none]
  have list : items.Reduced := .generic (List.forall_mem_singleton.mpr two)
  have reduced : ∀ ty ∈ types ++ more, ty.Reduced := by
    simp [types, more, two, list, Reduced.nothing, Reduced.named, builtin, none]
  refine ⟨joins types (List.forall_mem_append.mp reduced).1, groups types more reduced, by decide, ?_⟩
  exact again both two 1

end StubInference.Stub.TypeExpr
