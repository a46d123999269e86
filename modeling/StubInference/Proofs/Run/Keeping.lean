import StubInference.Proofs.Renaming.Handles
import StubInference.Proofs.Run.Operations

/-!
# What operations keep

The heap only grows, so what is known of it at one time can be compared with what is known later. A
class takes further members, and an instance gathers further bindings behind those that it has;
everything else that has been recorded of an object stays as it was, under the same handle. So a value
shows the same at any later time.

## Main definitions

* `ClassInfo.Keeps`, `InstanceInfo.Keeps` — what classes and instances keep as they change
* `Heap.Keeps` — every object of a heap is still there in another one, and keeps what it keeps

## Main results

* `Heap.Grows.keeps` — a heap that has grown keeps everything
* `Operation.keeps_after` — every operation keeps everything, wherever it ends
-/

namespace StubInference

/-- A class that has changed is still the same but for its members, of which none is lost. -/
structure ClassInfo.Keeps (info info' : ClassInfo) : Prop where
  name : info'.name = info.name
  module : info'.module = info.module
  bases : info'.bases = info.bases
  metaclass : info'.metaclass = info.metaclass
  /-- The keywords, the functions and the nested classes. -/
  body : info'.body = info.body
  members : ∀ name ∈ info.members.names, name ∈ info'.members.names

/-- An instance that has changed is still one of its class, and the bindings of its attributes are
behind those they had. -/
structure InstanceInfo.Keeps (inst inst' : InstanceInfo) : Prop where
  cls : inst'.cls = inst.cls
  members : ∀ name v, inst.members.get? name = some v →
    ∃ w, inst'.members.get? name = some w ∧ v.bindings <+: w.bindings

/-- Every object of a heap is still there in another one, under its handle, and keeps what it keeps. -/
structure Heap.Keeps (heap heap' : Heap) : Prop where
  has : ∀ h, heap.Has h → heap'.Has h
  classes : ∀ id, heap.Has (.cls id) → (heap.classAt id).Keeps (heap'.classAt id)
  functions : ∀ id, heap.Has (.function id) → heap'.functionAt id = heap.functionAt id
  instances : ∀ id, heap.Has (.object id) → (heap.instanceAt id).Keeps (heap'.instanceAt id)
  frames : ∀ id, heap.Has (.frame id) → heap'.frameAt id = heap.frameAt id

/-! ## Members and bindings -/

/-- New bindings come behind the old ones. -/
theorem Variable.bindings_prefix_mergeWith (v w : Variable) :
    v.bindings <+: (v.mergeWith w).bindings := by
  have folded (new known : List (Binding Value)) : known <+: new.foldl addBinding known := by
    induction new generalizing known with
    | nil => exact List.prefix_refl known
    | cons b rest ih =>
      rw [List.foldl_cons]
      refine List.IsPrefix.trans ?_ (ih _)
      unfold addBinding
      split
      · exact List.prefix_refl known
      · exact List.prefix_append known [b]
  exact folded w.bindings v.bindings

theorem NameMap.mem_names_insert {α : Type} {names : NameMap α} {name other : String} {a : α}
    (h : name ∈ names.names) : name ∈ (names.insert other a).names := by
  rw [names_insert]
  split
  · exact h
  · exact List.mem_append_left _ h

/-- What is stored goes behind what an attribute holds. -/
theorem Heap.get?_upsert_prefix {names : NameMap Variable} {name : String} {v : Variable}
    (h : names.get? name = some v) (other : String) (w : Variable) :
    ∃ u, (names.upsert other w (·.mergeWith w)).get? name = some u ∧ v.bindings <+: u.bindings := by
  unfold NameMap.upsert
  by_cases hname : other = name
  · subst hname
    rw [NameMap.get?_insert_self, h]
    exact ⟨_, rfl, v.bindings_prefix_mergeWith w⟩
  · rw [NameMap.get?_insert_of_ne _ _ hname]
    exact ⟨v, h, List.prefix_refl _⟩

namespace ClassInfo.Keeps

variable {info info' info'' : ClassInfo}

theorem refl (info : ClassInfo) : info.Keeps info := ⟨rfl, rfl, rfl, rfl, rfl, fun _ h => h⟩

theorem trans (h : info.Keeps info') (h' : info'.Keeps info'') : info.Keeps info'' where
  name := h'.name.trans h.name
  module := h'.module.trans h.module
  bases := h'.bases.trans h.bases
  metaclass := h'.metaclass.trans h.metaclass
  body := h'.body.trans h.body
  members name hname := h'.members name (h.members name hname)

theorem insert (info : ClassInfo) (name : String) (a : Value) :
    info.Keeps { info with members := info.members.insert name a } :=
  { refl info with members := fun _ => NameMap.mem_names_insert }

/-- A class keeps its name with the module. -/
theorem fullName (h : info.Keeps info') : info'.fullName = info.fullName := by
  rw [ClassInfo.fullName, ClassInfo.fullName, h.module, h.name]

end ClassInfo.Keeps

namespace InstanceInfo.Keeps

variable {inst inst' inst'' : InstanceInfo}

theorem refl (inst : InstanceInfo) : inst.Keeps inst := ⟨rfl, fun _ v h => ⟨v, h, List.prefix_refl _⟩⟩

theorem trans (h : inst.Keeps inst') (h' : inst'.Keeps inst'') : inst.Keeps inst'' where
  cls := h'.cls.trans h.cls
  members name v hv := by
    obtain ⟨w, hw, first⟩ := h.members name v hv
    obtain ⟨u, hu, second⟩ := h'.members name w hw
    exact ⟨u, hu, first.trans second⟩

theorem upsert (inst : InstanceInfo) (name : String) (w : Variable) :
    inst.Keeps { inst with members := inst.members.upsert name w (·.mergeWith w) } :=
  ⟨rfl, fun _ _ hv => Heap.get?_upsert_prefix hv name w⟩

end InstanceInfo.Keeps

/-! ## Heaps -/

namespace Heap

variable {heap heap' heap'' : Heap}

namespace Keeps

theorem refl (heap : Heap) : heap.Keeps heap :=
  ⟨fun _ h => h, fun _ _ => .refl _, fun _ _ => rfl, fun _ _ => .refl _, fun _ _ => rfl⟩

theorem trans (h : heap.Keeps heap') (h' : heap'.Keeps heap'') : heap.Keeps heap'' where
  has handle here := h'.has handle (h.has handle here)
  classes id here := (h.classes id here).trans (h'.classes id (h.has _ here))
  functions id here := (h'.functions id (h.has _ here)).trans (h.functions id here)
  instances id here := (h.instances id here).trans (h'.instances id (h.has _ here))
  frames id here := (h'.frames id (h.has _ here)).trans (h.frames id here)

/-- An object shows under the name it had. -/
theorem showsAlike (h : heap.Keeps heap') {a : Value} (known : heap.Knows a) :
    heap.ShowsAlike heap' a.handles := by
  intro handle hmem
  have here := known.here handle hmem
  cases handle with
  | cls id => exact (h.classes id here).fullName
  | function id => exact congrArg FunctionInfo.fullName (h.functions id here)
  | object id =>
    change (heap'.classAt (heap'.instanceAt id).cls).fullName = _
    rw [(h.instances id here).cls]
    exact (h.classes _ (known.classes id hmem)).fullName
  | frame | scope => rfl

end Keeps

/-- One change of the heap keeps everything. -/
theorem Change.keeps (h : heap.Change heap') : heap.Keeps heap' where
  has _ := h.sizeLE.has
  classes id here := by
    rcases h.classAt here with same | ⟨-, name, a, more⟩
    · rw [same]
      exact .refl _
    · rw [more]
      exact .insert _ name a
  functions _ here := (Grows.single h).functionAt here
  instances id here := by
    rcases h.instanceAt here with same | ⟨name, w, more⟩
    · rw [same]
      exact .refl _
    · rw [more]
      exact .upsert _ name w
  frames _ here := (Grows.single h).frameAt here

/-- A heap that has grown keeps everything. -/
theorem Grows.keeps (h : heap.Grows heap') : heap.Keeps heap' := by
  induction h with
  | refl => exact .refl heap
  | tail _ change ih => exact ih.trans change.keeps

end Heap

namespace Operation

/-- The heap only grows. Whatever an operation is given and wherever it ends, every object that was
there before is still there under its handle and keeps what it keeps. So a value that was known before
has the same type and the same text as before. -/
theorem keeps_after (depth : Nat) (op : Operation) (m : Machine) :
    let heap := m.context.heap
    let heap' := (op.after (.atDepth depth) m).context.heap
    heap.Keeps heap' ∧
      ∀ a : Value, heap.Knows a → a.type heap' = a.type heap ∧ a.describe heap' = a.describe heap := by
  have grows := op.after_grows (fun E => Evaluator.atDepth_mirrors E depth) m
  refine ⟨grows.heap.keeps, fun a known => ?_⟩
  have alike := grows.heap.keeps.showsAlike known
  exact ⟨Value.type_congr a alike, Value.describe_congr a alike⟩

/-- An attribute is stored on an instance of a module that has run. A tuple of the instance and its
class shows as before. -/
theorem instanceModule_keeps :
    let m := (Machine.runModule Machine.instanceModule (.new .standard)).2
    let store := Operation.storeAttribute (Value.instanceObject ⟨0⟩).var "x" (Value.literal (.int 2)).var
    let stored := store.after (.atDepth depthLimit) m
    let pair := Value.tuple (some [(Value.instanceObject ⟨0⟩).var, (Value.classObject ⟨21⟩).var])
    pair.type stored.context.heap = pair.type m.context.heap ∧
      pair.describe stored.context.heap = pair.describe m.context.heap := by
  intro m store stored pair
  refine (keeps_after depthLimit store m).2 pair ?_
  have handles : pair.handles = [.object ⟨0⟩, .cls ⟨21⟩] := rfl
  constructor
  · rw [handles]
    decide +kernel
  · rw [handles]
    rintro id hid
    obtain rfl : id = ⟨0⟩ := by simpa using hid
    decide +kernel

end Operation

end StubInference
