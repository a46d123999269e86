import Mathlib.Order.WellFounded
import StubInference.Proofs.Renaming.Stages

/-!
# Two renamings

A heap that has grown holds the builtins of a fresh one and a past that the fresh one does not have.
So it matches the fresh heap along the renaming that skips the past, and what is run in both goes
the same way.

A heap that matches itself along every renaming which leaves its own objects in place names only
objects that it holds. Since running goes the same way in matching heaps, heaps stay so.

## Main definitions

* `Renaming.past` — the renaming that skips what a heap has gathered
* `Context.Closed` — only objects that exist are named

## Main results

* `Context.Grows.matches_past` — a state that has grown matches a fresh one
* `Context.Closed.run` — states stay closed
* `Heap.Closed.frame_classes`, `Heap.Closed.class_classes` — the classes named exist
-/

namespace StubInference

open Step

variable {E : Renaming}

/-! ## The builtins -/

namespace Builtins

theorem rename_class {info : ClassInfo} (h : info ∈ heap.classes) : info.rename E = info := by
  have bound : ∀ entry ∈ classBases, ∀ base ∈ entry.2, base < 21 := by decide
  simp only [heap, List.mem_toArray, List.mem_map] at h
  obtain ⟨⟨name, bases⟩, hentry, rfl⟩ := h
  have sameBases : (bases.map ClassId.mk).map E.cls = bases.map ClassId.mk := by
    rw [List.map_map]
    exact List.map_congr_left fun base hbase => Renaming.cls_builtin (bound _ hentry base hbase)
  have sameMembers : (classMembers name).mapValues (Value.rename E) = classMembers name := by
    unfold classMembers
    split
    · simp [NameMap.mapValues, Renaming.fn_builtin]
    · simp [NameMap.mapValues, Renaming.fn_builtin]
    · rfl
  simp [ClassInfo.rename, ClassInfo.declared, sameBases, sameMembers]

theorem rename_declare {module name : String} {params : List String} {returns : Value}
    {special : Option Special} (h : returns.rename E = returns) :
    (declare module name params returns special).rename E =
      declare module name params returns special := by
  simp [DeclaredFunction.rename, declare, Signature.rename, Signature.ofParams, NameMap.mapValues, h]

theorem rename_plain {entry : String × List String × Value} (h : entry ∈ plainFunctions) :
    entry.2.2.rename E = entry.2.2 := by
  have builtin (n : Nat) (hn : n < 21) : (Value.frozen ⟨n⟩).rename E = .frozen ⟨n⟩ :=
    congrArg Value.frozen (Renaming.cls_builtin hn)
  simp only [plainFunctions, List.mem_cons, List.not_mem_nil, or_false] at h
  rcases h with rfl | rfl | rfl | rfl | rfl | rfl | rfl | rfl | rfl | rfl | rfl | rfl | rfl <;>
    first | rfl | exact builtin _ (by decide)

theorem rename_function {info : FunctionInfo} (h : info ∈ heap.functions) :
    info.rename E = info := by
  simp only [heap, List.mem_toArray, List.mem_map, functions, List.mem_append, List.mem_cons,
    List.not_mem_nil, or_false] at h
  obtain ⟨function, hfunction, rfl⟩ := h
  refine congrArg FunctionInfo.declared ?_
  rcases hfunction with (rfl | rfl | rfl) | ⟨⟨name, params, returns⟩, hentry, rfl⟩
  · exact rename_declare rfl
  · exact rename_declare rfl
  · exact rename_declare rfl
  · cases found : overlay? moduleName name with
    | none => exact rename_declare (rename_plain (E := E) hentry)
    | some overlay =>
      simp only [overlay?, if_true] at found
      split at found <;> cases found <;> exact rename_declare rfl

end Builtins

/-! ## Gaps -/

namespace Shift

/-- Positions below a base stay, and those behind it leave a gap. -/
def skip (base gap n : Nat) : Nat := if n < base then n else n + gap

theorem skip_of_lt {base gap n : Nat} (h : n < base) : skip base gap n = n := if_pos h

theorem skip_strictMono (base gap : Nat) : StrictMono (skip base gap) := by
  intro m n h
  unfold skip
  split_ifs <;> omega

/-- New objects come behind the past, which is as long as the gap. -/
def past (base gap : Nat) : Shift := ⟨skip base gap, skip_strictMono base gap, gap, base⟩

/-- Nothing is moved but what does not exist. -/
def apart (size : Nat) : Shift := ⟨skip size 1, skip_strictMono size 1, 0, 0⟩

theorem admits_past (base gap size : Nat) : (past base gap).Admits size :=
  fun _ hn _ => if_neg (Nat.not_lt.mpr hn)

theorem matches_past {α : Type} {rename : α → α} {objects objects' : Array α}
    (more : objects.size ≤ objects'.size)
    (same : ∀ n < objects.size, objects'[n]? = objects[n]?.map rename) :
    (past objects.size (objects'.size - objects.size)).Matches rename objects objects' where
  first := Nat.le_refl _
  size := (Nat.add_sub_cancel' more).symm
  entry n := by
    by_cases known : n < objects.size
    · have kept : (past objects.size (objects'.size - objects.size)).move n = n := skip_of_lt known
      rw [kept]
      exact same n known
    · rw [Array.getElem?_eq_none (Nat.le_of_not_lt known), Option.map_none]
      refine Array.getElem?_eq_none ?_
      simp only [past, skip, if_neg known]
      omega

/-- A shift leaves everything in place below a position, and new objects too. -/
structure Fixes (shift : Shift) (size : Nat) : Prop where
  first : shift.first = 0
  extra : shift.extra = 0
  move : ∀ n < size, shift.move n = n

theorem Fixes.mono {shift : Shift} {size size' : Nat} (h : shift.Fixes size') (hle : size ≤ size') :
    shift.Fixes size :=
  ⟨h.first, h.extra, fun n hn => h.move n (Nat.lt_of_lt_of_le hn hle)⟩

theorem Fixes.admits {shift : Shift} {size : Nat} (h : shift.Fixes size) : shift.Admits size :=
  fun n _ hn => by rw [h.move n hn, h.extra, Nat.add_zero]

theorem fixes_apart (size : Nat) : (apart size).Fixes size := ⟨rfl, rfl, fun _ => skip_of_lt⟩

/-- Objects that name nothing which would move match themselves. -/
theorem Fixes.matches {α : Type} {shift : Shift} {rename : α → α} {objects : Array α}
    (h : shift.Fixes objects.size) (same : ∀ object ∈ objects, rename object = object) :
    shift.Matches rename objects objects where
  first := h.first ▸ Nat.zero_le _
  size := by rw [h.extra, Nat.add_zero]
  entry n := by
    by_cases known : n < objects.size
    · rw [h.move n known, Array.getElem?_eq_getElem known, Option.map_some,
        same _ (Array.getElem_mem known)]
    · have behind := Nat.le_trans (Nat.le_of_not_lt known) (StrictMono.le_apply shift.strictMono)
      rw [Array.getElem?_eq_none behind, Array.getElem?_eq_none (Nat.le_of_not_lt known),
        Option.map_none]

end Shift

/-! ## A past -/

/-- The renaming that skips what a heap has gathered besides the builtins. -/
def Renaming.past (heap : Heap) : Renaming where
  classes := .past Builtins.heap.classes.size (heap.classes.size - Builtins.heap.classes.size)
  functions := .past Builtins.heap.functions.size
    (heap.functions.size - Builtins.heap.functions.size)
  instances := .past Builtins.heap.instances.size
    (heap.instances.size - Builtins.heap.instances.size)
  frames := .past Builtins.heap.frames.size (heap.frames.size - Builtins.heap.frames.size)
  scopes := .past Builtins.heap.scopes.size (heap.scopes.size - Builtins.heap.scopes.size)
  builtinClasses _ := Shift.skip_of_lt
  builtinFunctions _ := Shift.skip_of_lt

theorem Renaming.admits_past (heap heap' : Heap) : (past heap).Admits heap' :=
  ⟨Shift.admits_past _ _ _, Shift.admits_past _ _ _, Shift.admits_past _ _ _,
    Shift.admits_past _ _ _, Shift.admits_past _ _ _⟩

theorem getElem?_eq_some_getD {α : Type} {objects : Array α} {n : Nat} (h : n < objects.size)
    (fallback : α) : objects[n]? = some (objects.getD n fallback) := by
  rw [Array.getD_eq_getD_getElem?, Array.getElem?_eq_getElem h, Option.getD_some]

/-- Declared classes never change. -/
theorem Heap.Grows.builtin_class {heap : Heap} (h : Builtins.heap.Grows heap) {n : Nat}
    (hn : n < Builtins.heap.classes.size) : heap.classes[n]? = Builtins.heap.classes[n]? := by
  have declared : ∀ n < 21, Builtins.heap.isBuilt ⟨n⟩ = false := by decide
  obtain ⟨members, same, kept⟩ := h.classAt (show (⟨n⟩ : ClassId).index < _ from hn)
  rw [kept (declared n hn)] at same
  rw [getElem?_eq_some_getD hn default,
    getElem?_eq_some_getD (Nat.lt_of_lt_of_le hn h.sizeLE.classes) default]
  exact congrArg some same

theorem Heap.Grows.builtin_function {heap : Heap} (h : Builtins.heap.Grows heap) {n : Nat}
    (hn : n < Builtins.heap.functions.size) :
    heap.functions[n]? = Builtins.heap.functions[n]? := by
  rw [getElem?_eq_some_getD hn default,
    getElem?_eq_some_getD (Nat.lt_of_lt_of_le hn h.sizeLE.functions) default]
  exact congrArg some (h.functionAt (show (⟨n⟩ : FunctionId).index < _ from hn))

/-- A heap that has grown holds a fresh one, with its past left out. -/
theorem Heap.Grows.matches_past {heap : Heap} (h : Builtins.heap.Grows heap) :
    Builtins.heap.Matches (.past heap) heap where
  classes := Shift.matches_past h.sizeLE.classes fun n hn => by
    rw [h.builtin_class hn, Array.getElem?_eq_getElem hn, Option.map_some,
      Builtins.rename_class (Array.getElem_mem hn)]
  functions := Shift.matches_past h.sizeLE.functions fun n hn => by
    rw [h.builtin_function hn, Array.getElem?_eq_getElem hn, Option.map_some,
      Builtins.rename_function (Array.getElem_mem hn)]
  instances := Shift.matches_past h.sizeLE.instances fun _ hn => (Nat.not_lt_zero _ hn).elim
  frames := Shift.matches_past h.sizeLE.frames fun _ hn => (Nat.not_lt_zero _ hn).elim
  scopes := Shift.matches_past h.sizeLE.scopes fun _ hn => (Nat.not_lt_zero _ hn).elim

theorem Context.Grows.matches_past {options : Options} {ctx : Context}
    (h : (Context.new options).Grows ctx) :
    (Context.new options).Matches (.past ctx.heap) ctx :=
  ⟨h.heap.matches_past, h.options, h.callStack⟩

/-! ## Closed states -/

/-- A renaming leaves everything in place that a heap holds. -/
structure Renaming.Fixes (E : Renaming) (heap : Heap) : Prop where
  classes : E.classes.Fixes heap.classes.size
  functions : E.functions.Fixes heap.functions.size
  instances : E.instances.Fixes heap.instances.size
  frames : E.frames.Fixes heap.frames.size
  scopes : E.scopes.Fixes heap.scopes.size

namespace Renaming.Fixes

variable {heap heap' : Heap}

theorem mono (h : E.Fixes heap') (hle : heap.SizeLE heap') : E.Fixes heap where
  classes := h.classes.mono hle.classes
  functions := h.functions.mono hle.functions
  instances := h.instances.mono hle.instances
  frames := h.frames.mono hle.frames
  scopes := h.scopes.mono hle.scopes

theorem admits (h : E.Fixes heap) : E.Admits heap :=
  ⟨h.classes.admits, h.functions.admits, h.instances.admits, h.frames.admits, h.scopes.admits⟩

theorem cls (h : E.Fixes heap) {id : ClassId} (hid : id.index < heap.classes.size) :
    E.cls id = id :=
  congrArg ClassId.mk (h.classes.move id.index hid)

theorem fn (h : E.Fixes heap) {id : FunctionId} (hid : id.index < heap.functions.size) :
    E.fn id = id :=
  congrArg FunctionId.mk (h.functions.move id.index hid)

end Renaming.Fixes

/-- A state names only objects that it holds: no renaming tells it apart which leaves these in
place. -/
structure Context.Closed (ctx : Context) : Prop where
  large : Builtins.heap.SizeLE ctx.heap
  named : ∀ E : Renaming, E.Fixes ctx.heap → ctx.Matches E ctx

/-- The builtins name only builtins. -/
theorem Context.closed_builtins {ctx : Context} (heap : ctx.heap = Builtins.heap)
    (callStack : ctx.callStack = []) : ctx.Closed where
  large := heap ▸ .refl _
  named E fixes := by
    rw [heap] at fixes
    refine ⟨?_, rfl, by rw [callStack]; rfl⟩
    rw [heap]
    exact ⟨fixes.classes.matches fun _ => Builtins.rename_class,
      fixes.functions.matches fun _ => Builtins.rename_function,
      fixes.instances.matches fun a h => absurd h (Array.not_mem_empty a),
      fixes.frames.matches fun a h => absurd h (Array.not_mem_empty a),
      fixes.scopes.matches fun a h => absurd h (Array.not_mem_empty a)⟩

/-- The renaming that leaves everything in place that a heap holds, and nothing else. -/
def Renaming.apart (heap : Heap) (large : Builtins.heap.SizeLE heap) : Renaming where
  classes := .apart heap.classes.size
  functions := .apart heap.functions.size
  instances := .apart heap.instances.size
  frames := .apart heap.frames.size
  scopes := .apart heap.scopes.size
  builtinClasses _ h := Shift.skip_of_lt (Nat.lt_of_lt_of_le h large.classes)
  builtinFunctions _ h := Shift.skip_of_lt (Nat.lt_of_lt_of_le h large.functions)

theorem Renaming.fixes_apart (heap : Heap) (large : Builtins.heap.SizeLE heap) :
    (apart heap large).Fixes heap :=
  ⟨Shift.fixes_apart _, Shift.fixes_apart _, Shift.fixes_apart _, Shift.fixes_apart _,
    Shift.fixes_apart _⟩

namespace Context.Closed

variable {ctx : Context} {α : Type}

/-- A step that goes the same way on matching states leaves a state closed. -/
theorem run (closed : ctx.Closed) {m : Analysis α} {e : Renaming → α → α}
    (h : ∀ E : Renaming, E.Fixes ctx.heap → Step.Mirrors E.contexts ctx m m (e E)) :
    (m ctx).2.Closed := by
  have grows := (h _ (Renaming.fixes_apart ctx.heap closed.large)).grows.heap.sizeLE
  refine ⟨closed.large.trans grows, fun E fixes => ?_⟩
  have before := fixes.mono grows
  exact ((h E before).follows ctx (closed.named E before) fixes.admits).1

/-- The renaming that leaves in place just what exists shows that a class exists. -/
theorem cls_lt (closed : ctx.Closed) {cls : ClassId}
    (h : (Renaming.apart ctx.heap closed.large).cls cls = cls) :
    cls.index < ctx.heap.classes.size := by
  by_contra absent
  have moved : Shift.skip ctx.heap.classes.size 1 cls.index = cls.index := congrArg ClassId.index h
  rw [Shift.skip, if_neg absent] at moved
  omega

/-- A list of classes that the renaming leaves alone. -/
theorem mem_cls_lt (closed : ctx.Closed) {classes : List ClassId}
    (h : classes = classes.map (Renaming.apart ctx.heap closed.large).cls) {cls : ClassId}
    (hcls : cls ∈ classes) : cls.index < ctx.heap.classes.size := by
  rw [← List.map_id classes, List.map_map] at h
  exact closed.cls_lt (List.map_inj_left.mp h cls hcls).symm

/-- The classes that a frame lists exist. -/
theorem frame_classes (closed : ctx.Closed) {id : FrameId} (hid : id.index < ctx.heap.frames.size)
    {cls : ClassId} (hcls : cls ∈ (ctx.heap.frameAt id).classes) :
    cls.index < ctx.heap.classes.size := by
  have fixes := Renaming.fixes_apart ctx.heap closed.large
  have place : (Renaming.apart ctx.heap closed.large).frame id = id :=
    congrArg FrameId.mk (fixes.frames.move id.index hid)
  have same := (closed.named _ fixes).heap.frameAt hid
  rw [place] at same
  exact closed.mem_cls_lt (congrArg Frame.classes same) hcls

/-- The classes that a class lists exist. -/
theorem class_classes (closed : ctx.Closed) {id : ClassId} (hid : id.index < ctx.heap.classes.size)
    {cls : ClassId} (hcls : cls ∈ (ctx.heap.classAt id).classes) :
    cls.index < ctx.heap.classes.size := by
  have fixes := Renaming.fixes_apart ctx.heap closed.large
  have same := (closed.named _ fixes).heap.classAt id
  rw [fixes.cls hid] at same
  refine closed.mem_cls_lt ?_ hcls
  exact (congrArg ClassInfo.classes same).trans (ClassInfo.classes_rename _)

end Context.Closed

end StubInference
