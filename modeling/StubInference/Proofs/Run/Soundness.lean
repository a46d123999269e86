import StubInference.Proofs.Run.WatchedSessions

/-!
# Sound states at every moment

At every moment of a session whatever is named is there, and every class links to older classes only.
The second holds through any stores of attributes, so a class may have itself or the class around it as
a member: its declaration goes on to the classes of its body only, and comes to an end.

## Main definitions

* `Heap.WalksInside` — look-ups only arrive at classes of the heap
* `Handle.ofStores` — the handles in stores of attributes

## Main results

* `Machine.always_hasAll` — nothing that is named is ever missing
* `Machine.always_layered` — classes always link to older ones, and their declarations end
-/

namespace StubInference

open Realm (contexts)

/-! ## What is named -/

/-- Every class that is met from a class of the heap is in the heap: along the bases, and on the way into
the classes of a body. -/
def Heap.WalksInside (heap : Heap) : Prop :=
  ∀ n < heap.classes.size, ∀ cls ∈ heap.mro ⟨n⟩ ++ heap.withNested [⟨n⟩],
    cls.index < heap.classes.size

instance (heap : Heap) : Decidable heap.WalksInside :=
  inferInstanceAs (Decidable (∀ n < heap.classes.size, _))

theorem Context.Closed.walksInside {ctx : Context} (closed : ctx.Closed) : ctx.heap.WalksInside := by
  have fixes := Renaming.fixes_apart ctx.heap closed.large
  refine fun n hn => List.forall_mem_append.mpr ⟨fun cls hcls => ?_, fun cls hcls => ?_⟩
  · have same := (closed.named _ fixes).heap.mro ⟨n⟩
    rw [fixes.cls hn] at same
    exact closed.mem_cls_lt same hcls
  · refine closed.nests_lt (fun other hother => ?_) ((ctx.heap.mem_withNested _ cls).mp hcls)
    rwa [List.mem_singleton.mp hother]

/-- At every moment of a session, and in the end, everything that is named is in the heap: by the
classes, functions, instances, frames and tables of the heap, by the call stack, by the locals, stacks,
cells and operands of the frames that are running, by the calls that are being made, and by the machine.
So what is looked up is found, at whatever class a look-up arrives. -/
theorem Machine.always_hasAll (options : Options) (stages : List Stage) :
    Always (fun moment ctx => ctx.heap.HasAll (moment.handles ++ ctx.handles) ∧ ctx.heap.WalksInside)
      options stages := by
  refine always_of_sound (fun {_ ctx moment} good known => ?_) options stages
  obtain ⟨large, here⟩ := Context.closed_iff.mp good.closed
  exact ⟨⟨large, List.forall_mem_append.mpr ⟨known, here⟩⟩, good.closed.walksInside⟩

/-! ## Stores of attributes -/

/-- The handles in stores of attributes: in the objects, and in what is stored. -/
def Handle.ofStores (stores : List (Variable × String × Variable)) : List Handle :=
  stores.flatMap fun store => store.1.handles ++ store.2.2.handles

section States

variable {base : Heap} {ctx : Context}

theorem Realm.Good.of_hasAll (here : ctx.heap.HasAll ctx.handles) (layered : ctx.heap.Layered) :
    contexts.Good Builtins.heap ctx :=
  have closed := Context.closed_iff.mpr here
  ⟨closed.large, closed.large, closed.named, layered⟩

theorem Realm.Good.setAttribute (good : contexts.Good base ctx) {object v : Variable}
    (known : ∀ h ∈ object.handles ++ v.handles, ctx.heap.Has h) (name : String) :
    contexts.Good base { ctx with heap := ctx.heap.setAttribute object name v } := by
  have grows : ctx.heap.Grows (ctx.heap.setAttribute object name v) := .setAttribute ..
  refine ⟨good.base.trans grows.sizeLE, good.large.trans grows.sizeLE, fun E fixes => ?_,
    good.layered.of_grows grows (ctx.heap.size_setAttribute object name v)⟩
  have before : E.Fixes ctx.heap := fixes.mono grows.sizeLE
  obtain ⟨hobject, hv⟩ := Renaming.leaves_append.mp (before.leaves known)
  have stored := (good.heap_matches before).setAttribute object name v
  rw [(Variable.rename_eq_self object).mpr hobject, (Variable.rename_eq_self v).mpr hv] at stored
  exact ⟨stored, (good.named E before).options, (good.named E before).callStack⟩

/-- Stores of what is there lead from sound states to sound ones. -/
theorem Realm.Good.setAttributes (good : contexts.Good base ctx)
    {stores : List (Variable × String × Variable)}
    (known : ∀ h ∈ Handle.ofStores stores, ctx.heap.Has h) :
    contexts.Good base { ctx with heap := ctx.heap.setAttributes stores } := by
  induction stores generalizing ctx with
  | nil => exact good
  | cons store rest ih =>
    obtain ⟨first, later⟩ := List.forall_mem_append.mp known
    refine ih (good.setAttribute first store.2.1) fun h hmem => ?_
    exact (Heap.Grows.setAttribute ..).sizeLE.has (later h hmem)

end States

/-- At every moment of a session, and in the end, every class links to older ones only: its bases, its
metaclass and the classes of its body. Stores of attributes never change this. So the declaration of a
class comes to an end where it goes on to every class of the body, without looking at ages, and is the
same then. -/
theorem Machine.always_layered (options : Options) (stages : List Stage) :
    Always (fun _ ctx => ctx.heap.HasAll ctx.handles ∧ ctx.heap.Layered) options stages ∧
      (∀ (heap : Heap) stores, heap.Layered → (heap.setAttributes stores).Layered) ∧
      ∀ (ctx : Context) stores, ctx.heap.HasAll (ctx.handles ++ Handle.ofStores stores) →
        ctx.heap.Layered → ∀ (depth fuel : Nat) (endless : Fault) (cls : ClassId),
        cls.index < ctx.heap.classes.size → cls.index < fuel →
        declareClassFreely (.atDepth depth) endless fuel cls
            { ctx with heap := ctx.heap.setAttributes stores } =
          declareClass (.atDepth depth) cls { ctx with heap := ctx.heap.setAttributes stores } := by
  refine ⟨?_, fun heap stores layered => layered.setAttributes stores, ?_⟩
  · refine always_of_sound (fun {_ ctx _} good _ => ?_) options stages
    exact ⟨Context.closed_iff.mp good.closed, good.layered⟩
  · intro ctx stores here layered depth fuel endless cls hcls hfuel
    obtain ⟨named, stored⟩ := List.forall_mem_append.mp here.2
    have good := (Realm.Good.of_hasAll ⟨here.1, named⟩ layered).rebase.setAttributes stored
    have known : Heap.Holds _ Renaming.cls cls := fun E fixes =>
      fixes.cls (Nat.lt_of_lt_of_le hcls good.base.classes)
    exact (declareClassFreely_shadows (Evaluator.atDepth_shadows depth here.1) endless hfuel good
      known).same

/-- The outer class of `Machine.nestedClasses` becomes a member of itself and of the class inside. -/
def Machine.backwardStores : List (Variable × String × Variable) :=
  let inner := Value.classObject ⟨Builtins.heap.classes.size⟩
  let outer := Value.classObject ⟨Builtins.heap.classes.size + 1⟩
  [(outer.var, "itself", outer.var), (inner.var, "around", outer.var)]

/-- The declaration of the outer class ends all the same. -/
theorem Machine.backwardStores_declareClass :
    let ctx := (session interpreter [.runModule nestedClasses] (.new .standard)).2.context
    let after := { ctx with heap := ctx.heap.setAttributes backwardStores }
    let outer : ClassId := ⟨Builtins.heap.classes.size + 1⟩
    ((after.heap.classAt outer).members.get? "itself").any (· == .classObject outer) = true ∧
      ctx.heap.HasAll (ctx.handles ++ Handle.ofStores backwardStores) ∧ ctx.heap.Layered ∧
      outer.index < ctx.heap.classes.size ∧
      declareClassFreely (.atDepth depthLimit) (.inconsistent .unbounded) ctx.heap.classes.size outer
          after =
        declareClass (.atDepth depthLimit) outer after ∧
      (declareClass (.atDepth depthLimit) outer after).1.isOk = true := by
  intro ctx after outer
  have here : ctx.heap.HasAll (ctx.handles ++ Handle.ofStores backwardStores) := by decide +kernel
  have layered : ctx.heap.Layered := by decide +kernel
  have known : outer.index < ctx.heap.classes.size := by decide +kernel
  have same := (always_layered .standard [.runModule nestedClasses]).2.2 ctx backwardStores here
    layered depthLimit ctx.heap.classes.size (.inconsistent .unbounded) outer known known
  refine ⟨by decide +kernel, here, layered, known, same, ?_⟩
  rw [← same]
  decide +kernel

end StubInference
