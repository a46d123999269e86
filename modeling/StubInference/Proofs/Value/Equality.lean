import Mathlib.Data.List.Forall2
import Mathlib.Data.List.Nodup
import Mathlib.Data.List.Perm.Subperm
import StubInference.Proofs.Value.Parts

/-!
# Equality of values

The equality that variables are kept distinct by passes over origins and over the order of keyword
arguments. It is transitive, and on values whose keyword arguments have distinct names it is an
equivalence.

## Main results

* `Value.Keyed.same_refl`, `Value.Keyed.same_symm`, `Value.same_trans` — equality of values
* `Variable.Keyed.same_refl`, `Variable.Keyed.same_symm`, `Variable.same_trans` — equality of variables
-/

namespace StubInference

/-! ## Tables of names -/

namespace NameMap

variable {α : Type}

theorem mem_of_get? {map : NameMap α} {name : String} {value : α}
    (h : map.get? name = some value) : (name, value) ∈ map := by
  induction map with
  | nil => simp [get?] at h
  | cons entry rest ih =>
    by_cases hk : entry.1 = name
    · obtain rfl : entry.2 = value := by simpa [get?, hk] using h
      simp [← hk]
    · exact List.mem_cons_of_mem _ (ih (by simpa [get?, hk] using h))

theorem get?_of_mem {map : NameMap α} (hd : map.names.Nodup) {name : String} {value : α}
    (h : (name, value) ∈ map) : map.get? name = some value := by
  induction map with
  | nil => simp at h
  | cons entry rest ih =>
    simp only [names, List.map_cons, List.nodup_cons] at hd
    rcases List.mem_cons.mp h with rfl | h
    · simp [get?]
    · have hne : entry.1 ≠ name := fun e => hd.1 (e ▸ List.mem_map_of_mem (f := (·.1)) h)
      simpa [get?, hne] using ih hd.2 h

/-- Two tables of one length bind the same names if one has no name twice and the other has all of
its names. -/
theorem names_perm {es fs : NameMap α} (hd : es.names.Nodup) (hl : es.length = fs.length)
    (hs : ∀ e ∈ es, ∃ w, fs.get? e.1 = some w) : es.names.Perm fs.names := by
  have hsub : es.names ⊆ fs.names := by
    intro name hname
    obtain ⟨e, he, rfl⟩ := List.mem_map.mp hname
    obtain ⟨w, hw⟩ := hs e he
    exact List.mem_map_of_mem (f := (·.1)) (mem_of_get? hw)
  exact (hd.subperm hsub).perm_of_length_le (by simp [names, hl])

end NameMap

/-! ## Lists item by item -/

section Items

variable {α : Type} {R S T : α → α → Prop} {as bs cs : List α}

theorem forall₂_refl_of_mem (h : ∀ a ∈ as, R a a) : List.Forall₂ R as as := by
  induction as with
  | nil => exact .nil
  | cons a as ih => exact .cons (h a (by simp)) (ih fun b hb => h b (by simp [hb]))

theorem forall₂_symm_of_mem (h : ∀ a ∈ as, ∀ b, R a b → S b a) (hab : List.Forall₂ R as bs) :
    List.Forall₂ S bs as := by
  induction hab with
  | nil => exact .nil
  | cons hab _ ih => exact .cons (h _ (by simp) _ hab) (ih fun c hc => h c (by simp [hc]))

theorem forall₂_trans_of_mem (h : ∀ a ∈ as, ∀ b c, R a b → S b c → T a c)
    (hab : List.Forall₂ R as bs) (hbc : List.Forall₂ S bs cs) : List.Forall₂ T as cs := by
  induction hab generalizing cs with
  | nil => cases hbc; exact .nil
  | cons hab _ ih =>
    cases hbc with
    | cons hb hbs =>
      exact .cons (h _ (by simp) _ _ hab hb) (ih (fun d hd => h d (by simp [hd])) hbs)

end Items

theorem Value.sameAll_iff {as bs : List Value} :
    Value.sameAll as bs = true ↔ List.Forall₂ (fun a b => a.same b = true) as bs := by
  induction as generalizing bs with
  | nil => cases bs <;> simp [Value.sameAll]
  | cons a as ih => cases bs <;> simp [Value.sameAll, ih]

namespace Variable

theorem sameBindings_iff {as bs : List (Binding Value)} :
    sameBindings as bs = true ↔
      List.Forall₂ (fun a b => a.same b = true) (as.map Binding.value) (bs.map Binding.value) := by
  induction as generalizing bs with
  | nil => cases bs <;> simp [sameBindings]
  | cons a as ih =>
    cases bs with
    | nil => simp [sameBindings]
    | cons b bs =>
      obtain ⟨a, _⟩ := a
      obtain ⟨b, _⟩ := b
      simp only [sameBindings, Bool.and_eq_true, ih, List.map_cons, List.forall₂_cons]

theorem same_iff {v w : Variable} :
    v.same w = true ↔ List.Forall₂ (fun a b => a.same b = true) v.values w.values := by
  cases v with | ofBindings as =>
  cases w with | ofBindings bs =>
  simp only [same, sameBindings_iff, values, bindings]

theorem sameAll_iff {vs ws : List Variable} :
    sameAll vs ws = true ↔ List.Forall₂ (fun v w => v.same w = true) vs ws := by
  induction vs generalizing ws with
  | nil => cases ws <;> simp [sameAll]
  | cons v vs ih => cases ws <;> simp [sameAll, ih]

theorem samePairs_iff {es fs : List (Variable × Variable)} :
    samePairs es fs = true ↔ List.Forall₂ (fun v w => v.same w = true)
      (es.flatMap fun (key, value) => [key, value])
      (fs.flatMap fun (key, value) => [key, value]) := by
  induction es generalizing fs with
  | nil => cases fs <;> simp [samePairs]
  | cons e es ih =>
    cases fs with
    | nil => simp [samePairs]
    | cons f fs =>
      obtain ⟨k, v⟩ := e
      obtain ⟨l, w⟩ := f
      simp only [samePairs, Bool.and_eq_true, ih, List.flatMap_cons, List.cons_append,
        List.nil_append, List.forall₂_cons, and_assoc]

theorem namesWithin_iff {es : List (String × Variable)} {fs : NameMap Variable} :
    namesWithin es fs = true ↔
      ∀ e ∈ es, ∃ w, fs.get? e.1 = some w ∧ e.2.same w = true := by
  induction es with
  | nil => simp [namesWithin]
  | cons e es ih =>
    obtain ⟨name, v⟩ := e
    cases h : fs.get? name <;> simp [namesWithin, ih, h]

end Variable

/-! ## Equality is an equivalence -/

private theorem same_refl_all : (∀ a : Value, a.Keyed → a.same a = true) ∧
    ∀ v : Variable, v.Keyed → v.same v = true := by
  apply Value.parts_induction
  · intro a inner parts keyed
    have vars : ∀ v ∈ a.parts, v.same v = true := fun v hv => parts v hv (keyed.parts v hv)
    cases a with
    | union members =>
      simp only [Value.same, Value.sameAll_iff]
      exact forall₂_refl_of_mem fun b hb => inner b hb (keyed.inner b hb)
    | bound receiver f =>
      have mem : receiver ∈ (Value.bound receiver f).inner := by simp [Value.inner]
      simpa [Value.same] using inner receiver mem (keyed.inner _ mem)
    | tuple elements | list elements | argTuple elements =>
      cases elements with
      | none => simp [Value.same, Variable.sameContents]
      | some elements =>
        simp only [Value.same, Variable.sameContents, Variable.sameAll_iff]
        exact forall₂_refl_of_mem vars
    | dict entries =>
      cases entries with
      | none => simp [Value.same, Variable.sameEntries]
      | some entries =>
        simp only [Value.same, Variable.sameEntries, Variable.samePairs_iff]
        exact forall₂_refl_of_mem vars
    | argDict entries =>
      cases entries with
      | none => simp [Value.same, Variable.sameNames]
      | some entries =>
        simp only [Value.same, Variable.sameNames, beq_self_eq_true, Bool.true_and,
          Variable.namesWithin_iff]
        intro e he
        exact ⟨e.2, NameMap.get?_of_mem keyed.names he,
          vars e.2 (List.mem_map_of_mem (f := (·.2)) he)⟩
    | any | null | literal | classObject | function | instanceObject | frozen =>
      simp [Value.same]
  · intro v values keyed
    rw [Variable.same_iff]
    exact forall₂_refl_of_mem fun a ha => values a ha (keyed.values a ha)

private theorem same_trans_all :
    (∀ a b c : Value, a.same b = true → b.same c = true → a.same c = true) ∧
      ∀ u v w : Variable, u.same v = true → v.same w = true → u.same w = true := by
  apply Value.parts_induction
  · intro a inner parts b c hab hbc
    have vars {vs ws : List Variable} (hv : List.Forall₂ (fun v w => v.same w = true) a.parts vs)
        (hw : List.Forall₂ (fun v w => v.same w = true) vs ws) :
        List.Forall₂ (fun v w => v.same w = true) a.parts ws := forall₂_trans_of_mem parts hv hw
    -- values of different kinds are never equal, so all three are of one kind
    cases a <;> cases b <;> simp only [Value.same, Bool.false_eq_true] at hab
    all_goals cases c <;> simp only [Value.same, Bool.false_eq_true] at hbc
    case any.any.any | null.null.null => rfl
    case union.union.union =>
      simp only [Value.same, Value.sameAll_iff] at *
      exact forall₂_trans_of_mem inner hab hbc
    case bound.bound.bound =>
      simp only [Value.same, Bool.and_eq_true, beq_iff_eq] at *
      exact ⟨inner _ (by simp [Value.inner]) _ _ hab.1 hbc.1, hab.2.trans hbc.2⟩
    case tuple.tuple.tuple e f g | list.list.list e f g | argTuple.argTuple.argTuple e f g =>
      cases e <;> cases f <;> cases g <;>
        simp_all only [Value.same, Variable.sameContents, Variable.sameAll_iff, Bool.false_eq_true]
      exact vars hab hbc
    case dict.dict.dict e f g =>
      cases e <;> cases f <;> cases g <;>
        simp_all only [Value.same, Variable.sameEntries, Variable.samePairs_iff, Bool.false_eq_true]
      exact vars hab hbc
    case argDict.argDict.argDict e f g =>
      cases e <;> cases f <;> cases g <;>
        simp only [Value.same, Variable.sameNames, Variable.namesWithin_iff, Bool.and_eq_true,
          beq_iff_eq, Bool.false_eq_true] at *
      refine ⟨hab.1.trans hbc.1, fun entry hentry => ?_⟩
      obtain ⟨v, hv, hev⟩ := hab.2 entry hentry
      obtain ⟨w, hw, hvw⟩ := hbc.2 _ (NameMap.mem_of_get? hv)
      exact ⟨w, hw, parts _ (List.mem_map_of_mem (f := (·.2)) hentry) _ _ hev hvw⟩
    all_goals
      simp only [Value.same, beq_iff_eq] at *
      exact hab.trans hbc
  · intro u values v w huv hvw
    simp only [Variable.same_iff] at *
    exact forall₂_trans_of_mem values huv hvw

private theorem same_symm_all : (∀ a b : Value, a.Keyed → a.same b = true → b.same a = true) ∧
    ∀ v w : Variable, v.Keyed → v.same w = true → w.same v = true := by
  apply Value.parts_induction
  · intro a inner parts b keyed hab
    have vars {vs : List Variable} (hv : List.Forall₂ (fun v w => v.same w = true) a.parts vs) :
        List.Forall₂ (fun v w => v.same w = true) vs a.parts :=
      forall₂_symm_of_mem (fun v hm w => parts v hm w (keyed.parts v hm)) hv
    cases a <;> cases b <;> simp only [Value.same, Bool.false_eq_true] at hab
    case any.any | null.null => rfl
    case union.union =>
      simp only [Value.same, Value.sameAll_iff] at *
      exact forall₂_symm_of_mem (fun a ha b => inner a ha b (keyed.inner a ha)) hab
    case bound.bound =>
      simp only [Value.same, Bool.and_eq_true, beq_iff_eq] at *
      exact ⟨inner _ (by simp [Value.inner]) _ (keyed.inner _ (by simp [Value.inner])) hab.1,
        hab.2.symm⟩
    case tuple.tuple e f | list.list e f | argTuple.argTuple e f =>
      cases e <;> cases f <;>
        simp_all only [Value.same, Variable.sameContents, Variable.sameAll_iff, Bool.false_eq_true]
      exact vars hab
    case dict.dict e f =>
      cases e <;> cases f <;>
        simp_all only [Value.same, Variable.sameEntries, Variable.samePairs_iff, Bool.false_eq_true]
      exact vars hab
    case argDict.argDict es fs =>
      cases es <;> cases fs <;>
        simp only [Value.same, Variable.sameNames, Variable.namesWithin_iff, Bool.and_eq_true,
          beq_iff_eq, Bool.false_eq_true] at *
      rename_i es fs
      -- the names of the left side are distinct, so the right side has them all and no others
      have perm := NameMap.names_perm keyed.names hab.1 fun e he =>
        (hab.2 e he).imp fun _ h => h.1
      refine ⟨hab.1.symm, fun f hf => ?_⟩
      obtain ⟨e, he, hname⟩ := List.mem_map.mp
        (perm.mem_iff.mpr (List.mem_map_of_mem (f := (·.1)) hf))
      obtain ⟨w, hw, hew⟩ := hab.2 e he
      have hfw : NameMap.get? fs e.1 = some f.2 :=
        NameMap.get?_of_mem (perm.nodup_iff.mp keyed.names) (by rw [hname]; exact hf)
      obtain rfl : f.2 = w := Option.some.inj (hfw.symm.trans hw)
      have hv := List.mem_map_of_mem (f := (·.2)) he
      exact ⟨e.2, hname ▸ NameMap.get?_of_mem keyed.names he,
        parts _ hv _ (keyed.parts _ hv) hew⟩
    all_goals
      simp only [Value.same, beq_iff_eq] at *
      exact hab.symm
  · intro v values w keyed hvw
    rw [Variable.same_iff] at *
    exact forall₂_symm_of_mem (fun a ha b => values a ha b (keyed.values a ha)) hvw

namespace Value

variable {a b c : Value}

theorem Keyed.same_refl (keyed : a.Keyed) : a.same a = true := same_refl_all.1 a keyed

theorem Keyed.same_symm (keyed : a.Keyed) (h : a.same b = true) : b.same a = true :=
  same_symm_all.1 a b keyed h

theorem same_refl (proper : a.Proper) : a.same a = true := proper.keyed.same_refl

theorem same_symm (proper : a.Proper) (h : a.same b = true) : b.same a = true :=
  proper.keyed.same_symm h

theorem same_trans (hab : a.same b = true) (hbc : b.same c = true) : a.same c = true :=
  same_trans_all.1 a b c hab hbc

end Value

namespace Variable

variable {u v w : Variable}

theorem Keyed.same_refl (keyed : v.Keyed) : v.same v = true := same_refl_all.2 v keyed

theorem Keyed.same_symm (keyed : v.Keyed) (h : v.same w = true) : w.same v = true :=
  same_symm_all.2 v w keyed h

theorem same_refl (proper : v.Proper) : v.same v = true := proper.keyed.same_refl

theorem same_symm (proper : v.Proper) (h : v.same w = true) : w.same v = true :=
  proper.keyed.same_symm h

theorem same_trans (huv : u.same v = true) (hvw : v.same w = true) : u.same w = true :=
  same_trans_all.2 u v w huv hvw

end Variable

end StubInference
