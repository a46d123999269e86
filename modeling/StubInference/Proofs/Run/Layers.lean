import StubInference.Proofs.Run.Growth

/-!
# Layers of classes

A class links to its bases, to its metaclass and to the classes of its body. All of these were there
before it was built, and none of the links ever changes: a class that takes another member, whatever
that is, still links to older classes only. So following links comes to an end.

## Main definitions

* `ClassInfo.links` — the classes that a class links to
* `Heap.Layered` — every class links to older ones only

## Main results

* `Heap.Layered.of_grows`, `Heap.Layered.addClass` — what keeps a heap layered
* `Heap.Layered.setAttributes` — no store of attributes ever adds a link
-/

namespace StubInference

/-- The classes that a class links to: its bases, its metaclass, and the classes of its body. -/
def ClassInfo.links (info : ClassInfo) : List ClassId :=
  info.bases ++ info.metaclass.toList ++ info.classes

namespace Heap

variable {heap heap' : Heap}

/-- Every class links to older ones only. -/
def Layered (heap : Heap) : Prop :=
  ∀ n < heap.classes.size, ∀ other ∈ (heap.classAt ⟨n⟩).links, other.index < n

instance (heap : Heap) : Decidable heap.Layered :=
  inferInstanceAs (Decidable (∀ n < heap.classes.size, _))

/-- A class that is not there links to nothing. -/
theorem Layered.lt (layered : heap.Layered) {cls other : ClassId}
    (h : other ∈ (heap.classAt cls).links) : other.index < cls.index := by
  by_cases known : cls.index < heap.classes.size
  · exact layered cls.index known other h
  · rw [classAt_of_size_le (Nat.le_of_not_lt known)] at h
    exact absurd h List.not_mem_nil

theorem layered_builtins : Builtins.heap.Layered := by decide

theorem Grows.links (h : heap.Grows heap') {cls : ClassId}
    (known : cls.index < heap.classes.size) :
    (heap'.classAt cls).links = (heap.classAt cls).links := by
  obtain ⟨members, same, -⟩ := h.classAt known
  rw [same]
  rfl

/-- A heap that has grown without a new class. -/
theorem Layered.of_grows (layered : heap.Layered) (h : heap.Grows heap')
    (size : heap'.classes.size = heap.classes.size) : heap'.Layered := by
  intro n hn other hother
  rw [size] at hn
  rw [h.links hn] at hother
  exact layered n hn other hother

/-- A new class may link to whatever is there. -/
theorem Layered.addClass (layered : heap.Layered) {info : ClassInfo}
    (known : ∀ other ∈ info.links, other.index < heap.classes.size) :
    (heap.addClass info).2.Layered := by
  intro n hn other hother
  rw [Heap.addClass, Array.size_push] at hn
  rcases Nat.lt_succ_iff_lt_or_eq.mp hn with old | rfl
  · refine layered n old other ?_
    rwa [classAt, Heap.addClass, getD_push old] at hother
  · refine known other ?_
    simpa [classAt, Heap.addClass, Array.getD_eq_getD_getElem?] using hother

theorem size_setAttributeOn (heap : Heap) (name : String) (v : Variable) (a : Value) :
    (heap.setAttributeOn name v a).classes.size = heap.classes.size := by
  rcases setAttributeOn_eq heap name v a with h | ⟨id, -, h⟩ | ⟨cls, -, -, h⟩ <;> rw [h]
  · rfl
  · simp [modifyClass]

theorem size_setAttribute (heap : Heap) (object : Variable) (name : String) (v : Variable) :
    (heap.setAttribute object name v).classes.size = heap.classes.size := by
  unfold setAttribute
  induction object.values generalizing heap with
  | nil => rfl
  | cons a rest ih => exact (ih _).trans (heap.size_setAttributeOn name v a)

/-- Store attributes, one after the other: each on an object, under a name. -/
def setAttributes (heap : Heap) (stores : List (Variable × String × Variable)) : Heap :=
  stores.foldl (fun heap store => heap.setAttribute store.1 store.2.1 store.2.2) heap

/-- Whatever is stored, on classes too, and however often, no class links to anything new. -/
theorem Layered.setAttributes (layered : heap.Layered)
    (stores : List (Variable × String × Variable)) : (heap.setAttributes stores).Layered := by
  unfold Heap.setAttributes
  induction stores generalizing heap with
  | nil => exact layered
  | cons store rest ih =>
    exact ih (layered.of_grows (.setAttribute ..) (heap.size_setAttribute ..))

end Heap

end StubInference
