import StubInference.Frame.Container
import StubInference.Proofs.Value.Covering

/-!
# Tracking

Instructions look at whether a variable holds one value, so covering alone is not kept by them: a
variable with two values that are both covered by one makes a container of unknown content where
its cover keeps the elements. A variable is tracked by another one that covers it and, where it has
a single value itself, knows that the tracked one has a single value too.

## Main definitions

* `Variable.TrackedBy` — tracking

## Main results

* `Variable.TrackedBy.mergeWith_left`, `Variable.TrackedBy.mergeWith_right` — joins track both sides
* `Variable.TrackedBy.appended`, `Variable.TrackedBy.extended`, `Variable.TrackedBy.tupleOf`,
  `Variable.TrackedBy.combined`, `Variable.TrackedBy.binaryResults` — what instructions make of
  tracked operands
-/

namespace StubInference

/-! ## Proper containers -/

namespace Value.Proper

/-- The elements that a proper value is known to have are proper. -/
theorem knownElements {a : Value} {elements : List Variable} (h : a.Proper)
    (ha : a.knownElements? = some elements) : ∀ v ∈ elements, v.Proper := by
  cases a with
  | tuple contents | list contents =>
    obtain rfl : contents = some elements := ha
    exact h.parts
  | literal l =>
    cases l with
    | tuple items =>
      obtain rfl := Option.some.inj ha
      intro v hv
      obtain ⟨item, -, rfl⟩ := List.mem_map.mp hv
      exact .var (.literal item)
    | _ => simp [knownElements?] at ha
  | _ => simp [knownElements?] at ha

end Value.Proper

theorem Variable.atomic_eq_ok_iff {v : Variable} {a : Value} :
    v.atomic = .ok a ↔ v.values = [a] := by
  rcases v with ⟨_ | ⟨b, _ | ⟨c, rest⟩⟩⟩ <;> simp [atomic, values, bindings]

/-- A dictionary with constant keys is built exactly from one literal tuple of as many items as
there are values. -/
theorem keyedBy_eq_ok_iff {keys : Variable} {vars : List Variable} {a : Value} :
    keyedBy keys vars = .ok a ↔ ∃ items : List Literal, keys.values = [.literal (.tuple items)] ∧
      items.length = vars.length ∧
        a = .dict (some ((items.map fun item => (Value.literal item).var).zip vars)) := by
  unfold keyedBy Variable.literal
  cases h : keys.atomic with
  | error e =>
    have hne : ∀ b, keys.values ≠ [b] := fun b hb => by
      rw [Variable.atomic_eq_ok_iff.mpr hb] at h
      cases h
    simp [bind, Except.bind, hne]
  | ok b =>
    rw [Variable.atomic_eq_ok_iff] at h
    cases b with
    | literal l =>
      cases l with
      | tuple items =>
        simp only [h, bind, Except.bind, Literal.Shape.any, pure, Except.pure]
        split
        case isTrue hlen => simp [hlen, eq_comm]
        case isFalse hlen => simp [hlen]
      | _ => simp [h, bind, Except.bind, Literal.Shape.any, pure, Except.pure]
    | _ => simp [h, bind, Except.bind, throw, throwThe, MonadExceptOf.throw]

/-- A variable that covers another and has a single value only where that one has. -/
structure Variable.TrackedBy (v w : Variable) : Prop where
  covered : v.coveredBy w = true
  inhabited : v.values ≠ []
  atomic : w.isAtomic = true → v.isAtomic = true
  proper : w.Proper

namespace Variable.TrackedBy

variable {u v w x : Variable} {a b : Value}

theorem refl (proper : v.Proper) : v.TrackedBy v :=
  ⟨coveredBy_refl proper, proper.inhabited, id, proper⟩

/-- The single value of a tracking variable covers the single value of the tracked one. -/
theorem atomic? (h : v.TrackedBy w) (hw : w.atomic? = some b) :
    ∃ a, v.atomic? = some a ∧ a.coveredBy b = true ∧ b.Proper := by
  rw [atomic?_eq_some_iff] at hw
  have single := h.atomic (isAtomic_iff.mpr (by simp [hw]))
  obtain ⟨a, ha⟩ := List.length_eq_one_iff.mp (isAtomic_iff.mp single)
  obtain ⟨c, hc, hac⟩ := coveredBy_iff.mp h.covered a (by simp [ha])
  obtain rfl : c = b := by simpa [hw] using hc
  exact ⟨a, atomic?_eq_some_iff.mpr ha, hac, h.proper.values _ hc⟩

/-! ## Joins -/

theorem mergeWith_left (h : v.TrackedBy w) (hx : x.Proper) : v.TrackedBy (w.mergeWith x) where
  covered := coveredBy_iff.mpr fun a ha => by
    obtain ⟨b, hb, hab⟩ := coveredBy_iff.mp h.covered a ha
    exact ⟨b, by rw [values_mergeWith]; exact Value.mem_addNew_of_mem hb _, hab⟩
  inhabited := h.inhabited
  atomic := by
    intro hm
    rw [isAtomic_iff, values_mergeWith] at hm
    obtain ⟨extra, heq, -⟩ := Value.addNew_eq_append w.values x.values
    have hw := List.length_pos_iff.mpr h.proper.inhabited
    refine h.atomic (isAtomic_iff.mpr ?_)
    rw [heq, List.length_append] at hm
    omega
  proper := h.proper.mergeWith hx

theorem mergeWith_right (h : v.TrackedBy w) (hx : x.Proper) : v.TrackedBy (x.mergeWith w) where
  covered := coveredBy_iff.mpr fun a ha => by
    obtain ⟨b, hb, hab⟩ := coveredBy_iff.mp h.covered a ha
    obtain ⟨c, hc, hcb⟩ := Value.exists_mem_addNew x.values h.proper.values hb
    have hcp : c.Proper := (Value.mem_or_mem_of_mem_addNew hc).elim (hx.values c) (h.proper.values c)
    exact ⟨c, by rwa [values_mergeWith], Value.coveredBy_trans_same hab (Value.same_symm hcp hcb)⟩
  inhabited := h.inhabited
  atomic := by
    intro hm
    rw [isAtomic_iff, values_mergeWith] at hm
    obtain ⟨c, hc⟩ := List.length_eq_one_iff.mp hm
    obtain ⟨d, hd⟩ := List.exists_mem_of_ne_nil _ hx.inhabited
    obtain rfl : d = c := by simpa [hc] using Value.mem_addNew_of_mem hd w.values
    -- nothing of the tracking side is new, so all of its values equal the one that is there
    have hle : w.values.length ≤ 1 :=
      Value.length_le_one_of_same (hx.values d hd) h.proper.distinct fun b hb => by
        obtain ⟨e, he, heb⟩ := Value.exists_mem_addNew x.values h.proper.values hb
        obtain rfl : e = d := by simpa [hc] using he
        exact heb
    have hpos := List.length_pos_iff.mpr h.proper.inhabited
    exact h.atomic (isAtomic_iff.mpr (by omega))
  proper := hx.mergeWith h.proper

/-! ## New variables -/

theorem ofValueAt (h : a.coveredBy b = true) (hb : b.Proper) (o o' : Origin) :
    (Variable.ofValueAt a o).TrackedBy (Variable.ofValueAt b o') :=
  ⟨by simpa [coveredBy_iff] using h, by simp, by simp [isAtomic_iff], .ofValueAt hb o'⟩

theorem var (h : a.coveredBy b = true) (hb : b.Proper) : a.var.TrackedBy b.var :=
  ofValueAt h hb .synthetic .synthetic

/-- The variable that holds several values is tracked by one that holds these and others. -/
theorem ofValues {as bs : List Value} (hs : as ⊆ bs) (hne : as ≠ [])
    (proper : ∀ b ∈ bs, b.Proper) :
    (Variable.ofValues as).TrackedBy (Variable.ofValues bs) := by
  have hnb : bs ≠ [] := fun h => hne (List.subset_nil.mp (h ▸ hs))
  have hva : (Variable.ofValues as).values = Value.addNew [] as := by
    rw [values_ofValues, if_neg hne]
  have hvb : (Variable.ofValues bs).values = Value.addNew [] bs := by
    rw [values_ofValues, if_neg hnb]
  have repr : ∀ a ∈ as, ∃ b ∈ (Variable.ofValues bs).values, b.same a = true := fun a ha =>
    hvb ▸ Value.exists_mem_addNew [] proper (hs ha)
  have hpb : (Variable.ofValues bs).Proper := .ofValues proper
  have ofMem : ∀ a ∈ (Variable.ofValues as).values, a ∈ as := fun a ha =>
    (Value.mem_or_mem_of_mem_addNew (hva ▸ ha)).resolve_left (by simp)
  refine ⟨coveredBy_iff.mpr fun a ha => ?_, hva ▸ Value.addNew_ne_nil hne, fun hb => ?_, hpb⟩
  · obtain ⟨b, hb, hba⟩ := repr a (ofMem a ha)
    exact ⟨b, hb, Value.coveredBy_of_same (Value.same_symm (hpb.values b hb) hba)⟩
  · obtain ⟨b, hb⟩ := List.length_eq_one_iff.mp (isAtomic_iff.mp hb)
    have hle : (Variable.ofValues as).values.length ≤ 1 :=
      Value.length_le_one_of_same (hpb.values b (by simp [hb]))
        (hva ▸ Value.pairwise_addNew .nil) fun a ha => by
        obtain ⟨c, hc, hca⟩ := repr a (ofMem a ha)
        obtain rfl : c = b := by simpa [hb] using hc
        exact hca
    have hpos := List.length_pos_iff.mpr (hva ▸ Value.addNew_ne_nil hne)
    exact isAtomic_iff.mpr (by omega)

/-- The join of variables covers each of them. -/
theorem merge {ws : List Variable} (h : v.TrackedBy w) (hw : w ∈ ws) (proper : ∀ x ∈ ws, x.Proper) :
    (Variable.merge [v]).coveredBy (Variable.merge ws) = true := by
  have hwm : ∀ b ∈ w.values, b ∈ ws.flatMap values := fun b hb =>
    List.mem_flatMap.mpr ⟨w, hw, hb⟩
  have hne : ws.flatMap values ≠ [] := by
    obtain ⟨b, hb⟩ := List.exists_mem_of_ne_nil _ h.proper.inhabited
    exact List.ne_nil_of_mem (hwm b hb)
  have all : ∀ b ∈ ws.flatMap values, b.Proper := fun b hb => by
    obtain ⟨x, hx, hbx⟩ := List.mem_flatMap.mp hb
    exact (proper x hx).values b hbx
  rw [coveredBy_iff, values_merge, values_merge, if_neg hne]
  intro a ha
  simp only [List.flatMap_cons, List.flatMap_nil, List.append_nil, if_neg h.inhabited] at ha
  have hav := (Value.mem_or_mem_of_mem_addNew ha).resolve_left (by simp)
  obtain ⟨b, hb, hab⟩ := coveredBy_iff.mp h.covered a hav
  obtain ⟨c, hc, hcb⟩ := Value.exists_mem_addNew [] all (hwm b hb)
  have hcp := all c ((Value.mem_or_mem_of_mem_addNew hc).resolve_left (by simp))
  exact ⟨c, hc, Value.coveredBy_trans_same hab (Value.same_symm hcp hcb)⟩

/-! ## Containers -/

section Containers

variable {vs ws : List Variable}

theorem covered_all (h : List.Forall₂ Variable.TrackedBy vs ws) :
    List.Forall₂ (fun v w => v.coveredBy w = true) vs ws := h.imp fun _ _ h => h.covered

theorem proper_all (h : List.Forall₂ Variable.TrackedBy vs ws) : ∀ w ∈ ws, w.Proper := by
  induction h with
  | nil => simp
  | cons h _ ih => simpa using ⟨h.proper, ih⟩

theorem list (h : List.Forall₂ Variable.TrackedBy vs ws) :
    (Value.list (some vs)).coveredBy (.list (some ws)) = true ∧ (Value.list (some ws)).Proper :=
  ⟨allCoveredBy_iff.mpr (covered_all h), .list (proper_all h)⟩

theorem tuple (h : List.Forall₂ Variable.TrackedBy vs ws) :
    (Value.tuple (some vs)).coveredBy (.tuple (some ws)) = true ∧ (Value.tuple (some ws)).Proper :=
  ⟨allCoveredBy_iff.mpr (covered_all h), .tuple (proper_all h)⟩

theorem pairsCoveredBy_pairUp (h : List.Forall₂ Variable.TrackedBy vs ws) :
    pairsCoveredBy (pairUp vs) (pairUp ws) = true := by
  induction vs using pairUp.induct generalizing ws with
  | case1 k v rest ih =>
    obtain _ | ⟨hk, _ | ⟨hv, hrest⟩⟩ := h
    simp [pairUp, pairsCoveredBy, hk.covered, hv.covered, ih hrest]
  | case2 rest hrest =>
    obtain _ | ⟨hk, _ | ⟨hv, -⟩⟩ := h
    · simp [pairUp, pairsCoveredBy]
    · simp [pairUp, pairsCoveredBy]
    · exact absurd rfl (hrest _ _ _)

theorem proper_pairUp (h : ∀ w ∈ ws, w.Proper) : ∀ e ∈ pairUp ws, e.1.Proper ∧ e.2.Proper := by
  induction ws using pairUp.induct with
  | case1 k v rest ih =>
    simp only [List.forall_mem_cons] at h
    simpa [pairUp] using ⟨⟨h.1, h.2.1⟩, fun a b => ih h.2.2 (a, b)⟩
  | case2 rest hrest => simp [pairUp]

/-- Pairing up tracked keys and values. -/
theorem dict_pairUp (h : List.Forall₂ Variable.TrackedBy vs ws) :
    (Value.dict (some (pairUp vs))).coveredBy (.dict (some (pairUp ws))) = true ∧
      (Value.dict (some (pairUp ws))).Proper :=
  ⟨pairsCoveredBy_pairUp h, .dict (proper_pairUp (proper_all h))⟩

end Containers

/-- Known elements of the list that a tracking variable holds are known of the tracked one too. -/
theorem listElements? {ws : List Variable} (h : v.TrackedBy w)
    (hw : StubInference.listElements? w = some ws) :
    ∃ vs, StubInference.listElements? v = some vs ∧
      List.Forall₂ (fun v w => v.coveredBy w = true) vs ws ∧ ∀ x ∈ ws, x.Proper := by
  unfold StubInference.listElements? at hw
  split at hw
  case h_1 elements ha =>
    subst hw
    obtain ⟨a, hv, hcov, hp⟩ := h.atomic? ha
    obtain ⟨vs, rfl, hvs⟩ := Value.coveredBy_list_some hcov
    exact ⟨vs, by simp [StubInference.listElements?, hv], hvs, hp.parts⟩
  case h_2 => simp at hw

theorem dictEntries? {fs : List (Variable × Variable)} (h : v.TrackedBy w)
    (hw : StubInference.dictEntries? w = some fs) :
    ∃ es, StubInference.dictEntries? v = some es ∧ pairsCoveredBy es fs = true ∧
      ∀ e ∈ fs, e.1.Proper ∧ e.2.Proper := by
  unfold StubInference.dictEntries? at hw
  split at hw
  case h_1 entries ha =>
    subst hw
    obtain ⟨a, hv, hcov, hp⟩ := h.atomic? ha
    obtain ⟨es, rfl, hes⟩ := Value.coveredBy_dict_some hcov
    exact ⟨es, by simp [StubInference.dictEntries?, hv], hes, hp.of_dict⟩
  case h_2 => simp at hw

theorem sequenceElements? {ws : List Variable} (h : v.TrackedBy w)
    (hw : StubInference.sequenceElements? w = some ws) :
    ∃ vs, StubInference.sequenceElements? v = some vs ∧
      List.Forall₂ (fun v w => v.coveredBy w = true) vs ws ∧ ∀ x ∈ ws, x.Proper := by
  obtain ⟨b, hb, hel⟩ := Option.bind_eq_some_iff.mp hw
  obtain ⟨a, ha, hcov, hp⟩ := h.atomic? hb
  obtain ⟨vs, hvs, hall⟩ := Value.knownElements?_of_coveredBy hcov hel
  exact ⟨vs, by simp [StubInference.sequenceElements?, ha, hvs], hall, hp.knownElements hel⟩

/-- Appending to a list. -/
theorem appended (hv : v.TrackedBy w) (hu : u.TrackedBy x) :
    (StubInference.appended v u).coveredBy (StubInference.appended w x) = true ∧
      (StubInference.appended w x).Proper := by
  unfold StubInference.appended
  cases hw : StubInference.listElements? w with
  | none => exact ⟨by simp [Value.coveredBy], .of_plain rfl rfl (by simp)⟩
  | some ws =>
    obtain ⟨vs, hvs, hall, hp⟩ := hv.listElements? hw
    rw [hvs]
    refine ⟨allCoveredBy_iff.mpr (List.rel_append hall (.cons hu.covered .nil)), .list ?_⟩
    simpa [or_imp, forall_and] using ⟨hp, hu.proper⟩

/-- Extending a list. -/
theorem extended (hv : v.TrackedBy w) (hu : u.TrackedBy x) :
    (StubInference.extended v u).coveredBy (StubInference.extended w x) = true ∧
      (StubInference.extended w x).Proper := by
  unfold StubInference.extended
  cases hw : StubInference.listElements? w with
  | none => exact ⟨by simp [Value.coveredBy], .of_plain rfl rfl (by simp)⟩
  | some ws =>
    cases hx : StubInference.sequenceElements? x with
    | none => exact ⟨by simp [Value.coveredBy], .of_plain rfl rfl (by simp)⟩
    | some xs =>
      obtain ⟨vs, hvs, hall, hp⟩ := hv.listElements? hw
      obtain ⟨us, hus, hall', hp'⟩ := hu.sequenceElements? hx
      rw [hvs, hus]
      refine ⟨allCoveredBy_iff.mpr (List.rel_append hall hall'), .list ?_⟩
      simpa [or_imp, forall_and] using ⟨hp, hp'⟩

/-- Making a tuple of a sequence. -/
theorem tupleOf (hv : v.TrackedBy w) :
    (StubInference.tupleOf v).coveredBy (StubInference.tupleOf w) = true ∧
      (StubInference.tupleOf w).Proper := by
  unfold StubInference.tupleOf
  cases hw : StubInference.sequenceElements? w with
  | none => exact ⟨by simp [Value.coveredBy], .of_plain rfl rfl (by simp)⟩
  | some ws =>
    obtain ⟨vs, hvs, hall, hp⟩ := hv.sequenceElements? hw
    rw [hvs]
    exact ⟨allCoveredBy_iff.mpr hall, .tuple hp⟩

/-- Combining dictionaries. -/
theorem combined (hv : v.TrackedBy w) (hu : u.TrackedBy x) :
    (StubInference.combined v u).coveredBy (StubInference.combined w x) = true ∧
      (StubInference.combined w x).Proper := by
  unfold StubInference.combined
  cases hw : StubInference.dictEntries? w with
  | none => exact ⟨by simp [Value.coveredBy], .of_plain rfl rfl (by simp)⟩
  | some fs =>
    cases hx : StubInference.dictEntries? x with
    | none => exact ⟨by simp [Value.coveredBy], .of_plain rfl rfl (by simp)⟩
    | some gs =>
      obtain ⟨es, hes, hall, hp⟩ := hv.dictEntries? hw
      obtain ⟨ds, hds, hall', hp'⟩ := hu.dictEntries? hx
      rw [hes, hds]
      refine ⟨?_, .dict ?_⟩
      · rw [Value.coveredBy, pairsCoveredBy_iff, List.flatMap_append, List.flatMap_append]
        exact List.rel_append (pairsCoveredBy_iff.mp hall) (pairsCoveredBy_iff.mp hall')
      · intro e he
        exact (List.mem_append.mp he).elim (hp e) (hp' e)

theorem pairsCoveredBy_zip {keys vs ws : List Variable} (hk : ∀ k ∈ keys, k.Proper)
    (h : List.Forall₂ Variable.TrackedBy vs ws) :
    pairsCoveredBy (keys.zip vs) (keys.zip ws) = true := by
  induction h generalizing keys with
  | nil => simp [pairsCoveredBy]
  | cons hv _ ih =>
    cases keys with
    | nil => simp [pairsCoveredBy]
    | cons key keys =>
      simp only [List.forall_mem_cons] at hk
      simp [pairsCoveredBy, coveredBy_refl hk.1, hv.covered, ih hk.2]

/-- Building a dictionary with constant keys. What tracking operands allow, the tracked ones allow
too. -/
theorem keyedBy {vs ws : List Variable} (hk : v.TrackedBy w)
    (hvs : List.Forall₂ Variable.TrackedBy vs ws) (hw : StubInference.keyedBy w ws = .ok b) :
    ∃ a, StubInference.keyedBy v vs = .ok a ∧ a.coveredBy b = true ∧ b.Proper := by
  obtain ⟨items, hvalues, hlen, rfl⟩ := keyedBy_eq_ok_iff.mp hw
  obtain ⟨a, ha, hab, -⟩ := hk.atomic? (atomic?_eq_some_iff.mpr hvalues)
  obtain rfl := Value.coveredBy_literal hab
  have keys : ∀ k ∈ items.map fun item => (Value.literal item).var, k.Proper := by
    intro k hk
    obtain ⟨item, -, rfl⟩ := List.mem_map.mp hk
    exact .var (.literal item)
  refine ⟨_, keyedBy_eq_ok_iff.mpr ⟨items, atomic?_eq_some_iff.mp ha, ?_, rfl⟩, ?_, ?_⟩
  · rw [hlen, hvs.length_eq]
  · exact pairsCoveredBy_zip keys hvs
  · exact .dict fun e he => ⟨keys _ (List.of_mem_zip he).1, proper_all hvs _ (List.of_mem_zip he).2⟩

/-! ## Operators -/

theorem binaryResults (heap : Heap) (hv : v.TrackedBy w) (hu : u.TrackedBy x) :
    (StubInference.binaryResults heap v u).TrackedBy (StubInference.binaryResults heap w x) := by
  refine ofValues ?_ ?_ ?_
  · intro r hr
    obtain ⟨a, ha, hr⟩ := List.mem_flatMap.mp hr
    obtain ⟨c, hc, rfl⟩ := List.mem_map.mp hr
    obtain ⟨b, hb, hab⟩ := coveredBy_iff.mp hv.covered a ha
    obtain ⟨d, hd, hcd⟩ := coveredBy_iff.mp hu.covered c hc
    rw [Value.binaryResult_eq_of_coveredBy heap hab hcd]
    exact List.mem_flatMap.mpr ⟨b, hb, List.mem_map_of_mem hd⟩
  · obtain ⟨a, ha⟩ := List.exists_mem_of_ne_nil _ hv.inhabited
    obtain ⟨c, hc⟩ := List.exists_mem_of_ne_nil _ hu.inhabited
    exact List.ne_nil_of_mem (List.mem_flatMap.mpr ⟨a, ha, List.mem_map_of_mem hc⟩)
  · intro r hr
    obtain ⟨b, -, hr⟩ := List.mem_flatMap.mp hr
    obtain ⟨d, -, rfl⟩ := List.mem_map.mp hr
    unfold binaryResult
    repeat' split
    all_goals first | exact .frozen _ | exact .any

theorem negationResults (hv : v.TrackedBy w) :
    (Variable.ofValues (v.values.map negationResult)).TrackedBy
      (Variable.ofValues (w.values.map negationResult)) := by
  refine ofValues ?_ (by simpa using hv.inhabited) ?_
  · intro r hr
    obtain ⟨a, ha, rfl⟩ := List.mem_map.mp hr
    obtain ⟨b, hb, hab⟩ := coveredBy_iff.mp hv.covered a ha
    rw [Value.negationResult_eq_of_coveredBy hab]
    exact List.mem_map_of_mem hb
  · intro r hr
    obtain ⟨b, -, rfl⟩ := List.mem_map.mp hr
    unfold negationResult
    split
    · exact .frozen _
    · exact .any

end Variable.TrackedBy

end StubInference
