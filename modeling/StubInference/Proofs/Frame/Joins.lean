import StubInference.Frame.Step
import StubInference.Proofs.Value.Tables
import StubInference.Proofs.Value.Tracking

/-!
# Joins

Where several edges lead into a block, the states they bring along are joined, and so are the locals
at every return. A join tracks each of the states that went into it.

## Main definitions

* `LocalsTracked`, `BlockState.TrackedBy` — tracking of locals and of whole states
* `NameMap.Proper`, `BlockState.Proper` — locals and states with proper variables
* `Entered`, `Awaits` — the entry state of a block has a property, or tracks a given state

## Main results

* `LocalsTracked.mergeLocals_left`, `LocalsTracked.mergeLocals_right` — joined locals track both
* `BlockState.TrackedBy.merge_left`, `BlockState.TrackedBy.merge_right` — so do joined states
* `Entered.addPending`, `Entered.of_addPending` — entry states after an edge
-/

namespace StubInference

open BlockState FrameStep

/-! ## Proper states -/

/-- Every variable of a table is proper. -/
def NameMap.Proper (map : NameMap Variable) : Prop := ∀ entry ∈ map, entry.2.Proper

namespace NameMap.Proper

variable {map : NameMap Variable} {name : String} {v : Variable}

theorem get? (h : NameMap.Proper map) (hv : map.get? name = some v) : v.Proper := All.get? h hv

theorem insert (h : NameMap.Proper map) (hv : v.Proper) : NameMap.Proper (map.insert name v) :=
  All.insert h hv

theorem erase (h : NameMap.Proper map) : NameMap.Proper (map.erase name) := All.erase h

theorem upsert (h : NameMap.Proper map) (hv : v.Proper) :
    NameMap.Proper (map.upsert name v (·.mergeWith v)) := All.upsert h hv fun _ hw => hw.mergeWith hv

theorem mergeLocals {there : NameMap Variable} (h : NameMap.Proper map)
    (hthere : NameMap.Proper there) : NameMap.Proper (mergeLocals map there) :=
  All.mergeLocals h hthere fun _ _ hv hw => hv.mergeWith hw

end NameMap.Proper

/-- Every variable of a state is proper. -/
structure BlockState.Proper (state : BlockState) : Prop where
  locals : NameMap.Proper state.locals
  stack : ∀ v ∈ state.stack, v.Proper

/-! ## Tracked locals -/

/-- Locals of which the first are tracked by the second, under the same names. -/
def LocalsTracked (here there : NameMap Variable) : Prop :=
  ∀ name v, here.get? name = some v → ∃ w, there.get? name = some w ∧ v.TrackedBy w

namespace LocalsTracked

variable {here there other : NameMap Variable} {name : String} {v w : Variable}

theorem refl (proper : NameMap.Proper here) : LocalsTracked here here :=
  fun _ v hv => ⟨v, hv, .refl (proper.get? hv)⟩

theorem insert (h : LocalsTracked here there) (hv : v.TrackedBy w) :
    LocalsTracked (here.insert name v) (there.insert name w) := by
  intro other u hu
  by_cases hn : name = other
  · subst hn
    rw [NameMap.get?_insert_self] at hu
    obtain rfl := Option.some.inj hu
    exact ⟨w, NameMap.get?_insert_self .., hv⟩
  · rw [NameMap.get?_insert_of_ne _ _ hn] at hu ⊢
    exact h other u hu

theorem erase (h : LocalsTracked here there) :
    LocalsTracked (here.erase name) (there.erase name) := by
  intro other u hu
  by_cases hn : name = other
  · subst hn
    simp [NameMap.get?_erase_self] at hu
  · rw [NameMap.get?_erase_of_ne _ hn] at hu ⊢
    exact h other u hu

theorem upsert_left (h : LocalsTracked here there) (hw : w.Proper) :
    LocalsTracked here (there.upsert name w (·.mergeWith w)) := by
  intro other v hv
  obtain ⟨u, hu, hvu⟩ := h other v hv
  by_cases hn : name = other
  · subst hn
    refine ⟨u.mergeWith w, ?_, hvu.mergeWith_left hw⟩
    rw [NameMap.upsert, NameMap.get?_insert_self, hu]
    rfl
  · refine ⟨u, ?_, hvu⟩
    rw [NameMap.upsert, NameMap.get?_insert_of_ne _ _ hn, hu]

/-- Joined locals track what the first side tracked. -/
theorem mergeLocals_left (h : LocalsTracked here there) (proper : NameMap.Proper other) :
    LocalsTracked here (mergeLocals there other) := by
  induction other generalizing there with
  | nil => exact h
  | cons entry rest ih =>
    simp only [NameMap.Proper, List.forall_mem_cons] at proper
    exact ih (h.upsert_left proper.1) proper.2

/-- Joined locals track what the second side tracked. -/
theorem mergeLocals_right (h : LocalsTracked here there) (properOther : NameMap.Proper other)
    (proper : NameMap.Proper there) : LocalsTracked here (mergeLocals other there) := by
  intro name v hv
  obtain ⟨w, hw, hvw⟩ := h name v hv
  clear h
  induction there generalizing other with
  | nil => simp at hw
  | cons entry rest ih =>
    obtain ⟨key, x⟩ := entry
    simp only [NameMap.Proper, List.forall_mem_cons] at proper
    change ∃ w, (mergeLocals (other.upsert key x (·.mergeWith x)) rest).get? name = some w ∧ _
    by_cases hk : key = name
    · subst hk
      obtain rfl : x = w := by simpa [NameMap.get?] using hw
      -- from here on the name is bound in the joined locals, and later entries only add to it
      have single : LocalsTracked [(key, v)] (other.upsert key x (·.mergeWith x)) := by
        intro name u hu
        obtain ⟨rfl, rfl⟩ : key = name ∧ v = u := by simpa [NameMap.get?] using hu
        rw [NameMap.upsert, NameMap.get?_insert_self]
        cases ho : other.get? key with
        | none => exact ⟨x, rfl, hvw⟩
        | some y => exact ⟨_, rfl, hvw.mergeWith_right (properOther.get? ho)⟩
      exact single.mergeLocals_left proper.2 key v (by simp [NameMap.get?])
    · exact ih (properOther.upsert proper.1) proper.2 (by simpa [NameMap.get?, hk] using hw)

end LocalsTracked

/-- The locals of a joined state. -/
theorem BlockState.locals_merge {here there merged : BlockState}
    (h : here.merge there = .ok merged) :
    merged.locals = mergeLocals here.locals there.locals := by
  unfold BlockState.merge at h
  split at h
  · cases h
    rfl
  · cases h

/-! ## Tracked states -/

/-- Two lists of variables of one length, tracked one by one. -/
abbrev AllTracked (vs ws : List Variable) : Prop := List.Forall₂ Variable.TrackedBy vs ws

theorem AllTracked.refl {ws : List Variable} (proper : ∀ w ∈ ws, w.Proper) : AllTracked ws ws :=
  List.forall₂_same.mpr fun w hw => .refl (proper w hw)

/-- A state that is tracked by another one: the locals under the same names, the stack entry by
entry. -/
structure BlockState.TrackedBy (a b : BlockState) : Prop where
  locals : LocalsTracked a.locals b.locals
  stack : AllTracked a.stack b.stack

namespace BlockState.TrackedBy

variable {a b c d : BlockState}

theorem refl (proper : a.Proper) : a.TrackedBy a := ⟨.refl proper.locals, .refl proper.stack⟩

theorem zipWith_left {vs ws xs : List Variable} (h : AllTracked vs ws)
    (hlen : ws.length = xs.length) (proper : ∀ x ∈ xs, x.Proper) :
    AllTracked vs (List.zipWith Variable.mergeWith ws xs) := by
  induction h generalizing xs with
  | nil => exact .nil
  | cons hv _ ih =>
    cases xs with
    | nil => simp at hlen
    | cons x xs =>
      simp only [List.forall_mem_cons] at proper
      exact .cons (hv.mergeWith_left proper.1) (ih (Nat.succ.inj hlen) proper.2)

theorem zipWith_right {vs ws xs : List Variable} (h : AllTracked vs ws)
    (hlen : xs.length = ws.length) (proper : ∀ x ∈ xs, x.Proper) :
    AllTracked vs (List.zipWith Variable.mergeWith xs ws) := by
  induction h generalizing xs with
  | nil =>
    rw [List.zipWith_nil_right]
    exact .nil
  | cons hv _ ih =>
    cases xs with
    | nil => simp at hlen
    | cons x xs =>
      simp only [List.forall_mem_cons] at proper
      exact .cons (hv.mergeWith_right proper.1) (ih (Nat.succ.inj hlen) proper.2)

theorem merge_left (h : a.TrackedBy b) (proper : c.Proper) (hd : b.merge c = .ok d) :
    a.TrackedBy d := by
  unfold BlockState.merge at hd
  split at hd
  case isTrue hlen =>
    cases hd
    exact ⟨h.locals.mergeLocals_left proper.locals, zipWith_left h.stack hlen proper.stack⟩
  case isFalse => cases hd

theorem merge_right (h : a.TrackedBy c) (properb : b.Proper) (proper : c.Proper)
    (hd : b.merge c = .ok d) : a.TrackedBy d := by
  unfold BlockState.merge at hd
  split at hd
  case isTrue hlen =>
    cases hd
    exact ⟨h.locals.mergeLocals_right properb.locals proper.locals,
      zipWith_right h.stack hlen properb.stack⟩
  case isFalse => cases hd

end BlockState.TrackedBy

theorem BlockState.Proper.merge {b c d : BlockState} (hb : b.Proper) (hc : c.Proper)
    (hd : b.merge c = .ok d) : d.Proper := by
  have tracked := (BlockState.TrackedBy.refl hb).merge_left hc hd
  unfold BlockState.merge at hd
  split at hd
  case isTrue =>
    cases hd
    exact ⟨hb.locals.mergeLocals hc.locals, Variable.TrackedBy.proper_all tracked.stack⟩
  case isFalse => cases hd

/-! ## Entry states -/

/-- The entry state of a block is known and has a property. -/
def Entered (pending : List (Nat × BlockState)) (target : Nat) (P : BlockState → Prop) : Prop :=
  ∃ known, pending.find? (·.1 == target) = some (target, known) ∧ P known

/-- The entry state of a block is known and tracks a given state. -/
def Awaits (pending : List (Nat × BlockState)) (target : Nat) (state : BlockState) : Prop :=
  Entered pending target state.TrackedBy

/-- All entry states are proper. -/
def PendingProper (pending : List (Nat × BlockState)) : Prop := ∀ entry ∈ pending, entry.2.Proper

variable {pending pending' : List (Nat × BlockState)} {target other : Nat} {state here : BlockState}

theorem addPending_cons_eq_ok {known : BlockState} {block : Nat} {rest : List (Nat × BlockState)} :
    addPending target state ((block, known) :: rest) = .ok pending' ↔
      (block = target ∧ ∃ merged, known.merge state = .ok merged ∧
        pending' = (block, merged) :: rest) ∨
      (block ≠ target ∧ ∃ rest', addPending target state rest = .ok rest' ∧
        pending' = (block, known) :: rest') := by
  rw [addPending]
  by_cases hb : block = target
  · cases known.merge state <;> simp [hb, bind, Except.bind, pure, Except.pure, eq_comm]
  · cases addPending target state rest <;>
      simp [hb, bind, Except.bind, pure, Except.pure, eq_comm]

/-- What holds of all entry states and of the state of an edge holds of the entry states after the
edge, where joins keep it. -/
theorem forall_addPending {P : Nat → BlockState → Prop} (h : ∀ entry ∈ pending, P entry.1 entry.2)
    (hstate : P target state)
    (joins : ∀ known merged, P target known → known.merge state = .ok merged → P target merged)
    (hp : addPending target state pending = .ok pending') :
    ∀ entry ∈ pending', P entry.1 entry.2 := by
  induction pending generalizing pending' with
  | nil =>
    cases hp
    simpa using hstate
  | cons entry rest ih =>
    obtain ⟨block, known⟩ := entry
    simp only [List.forall_mem_cons] at h
    rcases addPending_cons_eq_ok.mp hp with ⟨rfl, merged, hm, rfl⟩ | ⟨-, rest', hr, rfl⟩
    · exact List.forall_mem_cons.mpr ⟨joins known merged h.1 hm, h.2⟩
    · exact List.forall_mem_cons.mpr ⟨h.1, ih h.2 hr⟩

theorem PendingProper.addPending (h : PendingProper pending) (proper : state.Proper)
    (hp : addPending target state pending = .ok pending') : PendingProper pending' :=
  forall_addPending (P := fun _ state => state.Proper) h proper
    (fun _ _ known hm => known.merge proper hm) hp

namespace Entered

variable {P : BlockState → Prop}

/-- Edges keep what joins keep. -/
theorem addPending (h : Entered pending other P)
    (keeps : ∀ known merged, P known → known.merge state = .ok merged → P merged)
    (hp : addPending target state pending = .ok pending') : Entered pending' other P := by
  induction pending generalizing pending' with
  | nil =>
    obtain ⟨_, hf, -⟩ := h
    simp at hf
  | cons entry rest ih =>
    obtain ⟨block, known⟩ := entry
    obtain ⟨found, hf, hfound⟩ := h
    by_cases ho : block = other
    · subst ho
      obtain rfl : known = found := by simpa using hf
      rcases addPending_cons_eq_ok.mp hp with ⟨-, merged, hm, rfl⟩ | ⟨-, rest', -, rfl⟩
      · exact ⟨merged, by simp, keeps known merged hfound hm⟩
      · exact ⟨known, by simp, hfound⟩
    · have hf' : rest.find? (·.1 == other) = some (other, found) := by simpa [ho] using hf
      rcases addPending_cons_eq_ok.mp hp with ⟨-, merged, -, rfl⟩ | ⟨-, rest', hr, rfl⟩
      · exact ⟨found, by simpa [ho] using hf', hfound⟩
      · obtain ⟨known', hk, hknown⟩ := ih ⟨found, hf', hfound⟩ hr
        exact ⟨known', by simpa [ho] using hk, hknown⟩

/-- An edge brings its state to the entry of its target. -/
theorem of_addPending (h : P state)
    (joins : ∀ entry ∈ pending, ∀ merged, entry.2.merge state = .ok merged → P merged)
    (hp : FrameStep.addPending target state pending = .ok pending') : Entered pending' target P := by
  induction pending generalizing pending' with
  | nil =>
    cases hp
    exact ⟨state, by simp, h⟩
  | cons entry rest ih =>
    obtain ⟨block, known⟩ := entry
    simp only [List.forall_mem_cons] at joins
    rcases addPending_cons_eq_ok.mp hp with ⟨rfl, merged, hm, rfl⟩ | ⟨hne, rest', hr, rfl⟩
    · exact ⟨merged, by simp, joins.1 merged hm⟩
    · obtain ⟨known', hk, hknown⟩ := ih joins.2 hr
      exact ⟨known', by simpa [hne] using hk, hknown⟩

/-- Taking the entry state of one block leaves those of the others. -/
theorem filter (h : Entered pending other P) (hne : other ≠ target) :
    Entered (pending.filter (·.1 ≠ target)) other P := by
  obtain ⟨known, hk, hknown⟩ := h
  refine ⟨known, ?_, hknown⟩
  rw [List.find?_filter, ← hk]
  congr 1
  funext entry
  by_cases he : entry.1 = other <;> simp_all

end Entered

/-- Edges only add to entry states. -/
theorem Awaits.addPending (h : Awaits pending other here) (proper : state.Proper)
    (hp : addPending target state pending = .ok pending') : Awaits pending' other here :=
  Entered.addPending h (fun _ _ tracked hm => tracked.merge_left proper hm) hp

/-- An edge brings its state to the entry of its target. -/
theorem awaits_addPending (h : here.TrackedBy state) (properAll : PendingProper pending)
    (proper : state.Proper) (hp : addPending target state pending = .ok pending') :
    Awaits pending' target here :=
  .of_addPending h (fun entry he _ hm => h.merge_right (properAll entry he) proper hm) hp

/-- Taking the entry state of one block leaves those of the others. -/
theorem Awaits.filter (h : Awaits pending other here) (hne : other ≠ target) :
    Awaits (pending.filter (·.1 ≠ target)) other here := Entered.filter h hne

end StubInference
