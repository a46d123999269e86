import StubInference.Proofs.Run.History
import StubInference.Proofs.Run.Worklist

/-!
# What the analysis of definitions reaches

A visit analyses every function of its frame, and every function of the classes that the frame lists
or that are nested in these, unless the class has been met before. What it runs is recorded in new
frames, which wait behind the others. So once no frame waits, every function has been run, and the
frames have been visited in the order in which they were recorded.

## Main definitions

* `Heap.Nests` — a class is listed, or is nested in one that is
* `Heap.Ran`, `Heap.RanOn` — a frame ran a function, freely or on an instance of a class
* `Machine.Explored` — what a visit keeps of the frames visited and of those that wait

## Main results

* `Heap.mem_withNested` — all nested classes are collected
* `Machine.Explored.visitFrame` — one visit
* `Machine.analyseDefinitions_complete` — what has been run when no frame waits
-/

namespace StubInference

open Step

/-! ## Nested classes -/

namespace Heap

variable {heap heap' : Heap}

/-- A class is listed, or it is listed by a class that is. -/
inductive Nests (heap : Heap) (classes : List ClassId) : ClassId → Prop
  | listed {cls : ClassId} (h : cls ∈ classes) : heap.Nests classes cls
  | nested {outer cls : ClassId} (reached : heap.Nests classes outer)
      (h : cls ∈ (heap.classAt outer).classes) : heap.Nests classes cls

/-- What is collected is closed under nesting where the fuel lasts: every class that is new uses up
the classes that it lists, and every other one that waits. -/
theorem collect_closed (heap : Heap) (fuel : Nat) (found queue : List ClassId)
    (enough : queue.length + heap.linksOutside ClassInfo.classes found < fuel)
    (closed : ∀ outer ∈ found, ∀ cls ∈ (heap.classAt outer).classes, cls ∈ found ∨ cls ∈ queue) :
    (∀ cls, cls ∈ found ∨ cls ∈ queue → cls ∈ heap.collect fuel found queue) ∧
      ∀ outer ∈ heap.collect fuel found queue, ∀ cls ∈ (heap.classAt outer).classes,
        cls ∈ heap.collect fuel found queue := by
  -- on the fuel; a class that is known leaves the queue, a new one moves from there to those found
  induction fuel generalizing found queue with
  | zero => omega
  | succ fuel ih =>
    cases queue with
    | nil =>
      have done : heap.collect (fuel + 1) found [] = found := rfl
      rw [done]
      simpa using closed
    | cons next rest =>
      rw [collect]
      rw [List.length_cons] at enough
      by_cases known : next ∈ found
      · rw [if_pos known]
        obtain ⟨kept, nested⟩ := ih found rest (by omega) fun outer houter cls hcls => by
          rcases closed outer houter cls hcls with hcls | hcls
          · exact .inl hcls
          · rcases List.mem_cons.mp hcls with rfl | hcls
            · exact .inl known
            · exact .inr hcls
        refine ⟨fun cls hcls => kept cls ?_, nested⟩
        rw [List.mem_cons] at hcls
        rcases hcls with hcls | rfl | hcls
        · exact .inl hcls
        · exact .inl known
        · exact .inr hcls
      · rw [if_neg known]
        -- what a new class lists is no longer counted among what lies outside
        have fewer := linksOutside_append heap ClassInfo.classes rfl known
        obtain ⟨kept, nested⟩ := ih (found ++ [next]) (rest ++ (heap.classAt next).classes)
          (by rw [List.length_append]; omega) fun outer houter cls hcls => by
            rw [List.mem_append, List.mem_singleton] at houter ⊢
            rw [List.mem_append]
            rcases houter with houter | rfl
            · rcases closed outer houter cls hcls with hcls | hcls
              · exact .inl (.inl hcls)
              · exact (List.mem_cons.mp hcls).imp .inr .inl
            · exact .inr (.inr hcls)
        refine ⟨fun cls hcls => kept cls ?_, nested⟩
        rw [List.mem_cons] at hcls
        rw [List.mem_append, List.mem_singleton, List.mem_append]
        tauto

/-- Only classes that have a property are collected, when those listed have it and pass it on. -/
theorem of_mem_collect {P : ClassId → Prop} (heap : Heap) (fuel : Nat) (found queue : List ClassId)
    (passes : ∀ outer, P outer → ∀ cls ∈ (heap.classAt outer).classes, P cls)
    (hfound : ∀ cls ∈ found, P cls) (hqueue : ∀ cls ∈ queue, P cls) :
    ∀ cls ∈ heap.collect fuel found queue, P cls := by
  induction fuel generalizing found queue with
  | zero => exact hfound
  | succ fuel ih =>
    cases queue with
    | nil => exact hfound
    | cons next rest =>
      rw [List.forall_mem_cons] at hqueue
      rw [collect]
      split
      · exact ih found rest hfound hqueue.2
      · refine ih _ _ (List.forall_mem_append.mpr ⟨hfound, by simpa using hqueue.1⟩) ?_
        exact List.forall_mem_append.mpr ⟨hqueue.2, passes next hqueue.1⟩

/-- Exactly the classes listed and those nested in them are collected. -/
theorem mem_withNested (heap : Heap) (classes : List ClassId) (cls : ClassId) :
    cls ∈ heap.withNested classes ↔ heap.Nests classes cls := by
  have enough : classes.length + heap.linksOutside ClassInfo.classes [] <
      classes.length + heap.classes.foldl (fun n cls => n + cls.classes.length) 0 + 1 := by
    rw [foldl_links]
    exact Nat.lt_succ_self _
  obtain ⟨kept, closed⟩ := collect_closed heap _ [] classes enough (List.forall_mem_nil _)
  constructor
  · exact of_mem_collect heap _ [] classes (fun _ outer _ h => .nested outer h) (List.forall_mem_nil _)
      (fun _ h => .listed h) cls
  · intro h
    induction h with
    | listed h => exact kept _ (.inr h)
    | nested _ h ih => exact closed _ ih _ h

end Heap

theorem Machine.mem_unseen {seen classes : List ClassId} {cls : ClassId} :
    cls ∈ unseen seen classes ↔ cls ∈ classes ∧ cls ∉ seen := by
  induction classes generalizing seen with
  | nil => simp [unseen]
  | cons next rest ih =>
    rw [unseen]
    split
    · rw [ih, List.mem_cons]
      constructor
      · exact fun h => ⟨.inr h.1, h.2⟩
      · rintro ⟨rfl | h, hnot⟩
        · contradiction
        · exact ⟨h, hnot⟩
    · rw [List.mem_cons, ih, List.mem_cons, List.mem_cons]
      by_cases same : cls = next
      · simpa [same]
      · simp [same]

/-! ## Frames that ran a function -/

namespace Heap

/-- A frame that has run a function to its end. -/
structure Ran (heap : Heap) (frame : FrameId) (id : FunctionId) : Prop where
  recorded : frame.index < heap.frames.size
  function : (heap.frameAt frame).function = some id
  finished : (heap.frameAt frame).finished = true

/-- A frame that has run a function on an instance of a class, with every other parameter unknown. -/
structure RanOn (heap : Heap) (frame : FrameId) (id : FunctionId) (cls : ClassId) : Prop
    extends heap.Ran frame id where
  bound : ∃ function inst, heap.functionAt id = .interpreted function ∧
    inst.index < heap.instances.size ∧ (heap.instanceAt inst).cls = cls ∧
      (heap.frameAt frame).initialLocals = function.signature.fakeArgs (some (.instanceObject inst))

variable {heap heap' : Heap} {frame : FrameId} {id : FunctionId} {cls : ClassId}

theorem Ran.mono (h : heap.Ran frame id) (grows : heap.Grows heap') : heap'.Ran frame id where
  recorded := Nat.lt_of_lt_of_le h.recorded grows.sizeLE.frames
  function := grows.frameAt h.recorded ▸ h.function
  finished := grows.frameAt h.recorded ▸ h.finished

theorem RanOn.mono (h : heap.RanOn frame id cls) (grows : heap.Grows heap') :
    heap'.RanOn frame id cls where
  toRan := h.toRan.mono grows
  bound := by
    obtain ⟨function, inst, hfunction, known, hcls, locals⟩ := h.bound
    refine ⟨function, inst, ?_, Nat.lt_of_lt_of_le known grows.sizeLE.instances, ?_, ?_⟩
    · rw [grows.functionAt (lt_of_functionAt hfunction), hfunction]
    · rw [(grows.instanceAt known).1, hcls]
    · rw [grows.frameAt h.recorded, locals]

end Heap

/-! ## Frames found -/

/-- Frames have been recorded in turn on the way from one state to another. -/
structure Context.Finds (ctx ctx' : Context) (found : List FrameId) : Prop where
  grows : ctx.Grows ctx'
  sorted : found.Pairwise (·.index < ·.index)
  new : ∀ id ∈ found, ctx.heap.frames.size ≤ id.index ∧ id.index < ctx'.heap.frames.size

namespace Context.Finds

variable {ctx ctx' ctx'' : Context} {found found' : List FrameId}

theorem nil (grows : ctx.Grows ctx') : ctx.Finds ctx' [] := ⟨grows, .nil, by simp⟩

theorem append (h : ctx.Finds ctx' found) (h' : ctx'.Finds ctx'' found') :
    ctx.Finds ctx'' (found ++ found') where
  grows := h.grows.trans h'.grows
  sorted := List.pairwise_append.mpr ⟨h.sorted, h'.sorted, fun a ha b hb =>
    Nat.lt_of_lt_of_le (h.new a ha).2 (h'.new b hb).1⟩
  new := List.forall_mem_append.mpr
    ⟨fun id hid => ⟨(h.new id hid).1,
        Nat.lt_of_lt_of_le (h.new id hid).2 h'.grows.heap.sizeLE.frames⟩,
      fun id hid => ⟨Nat.le_trans h.grows.heap.sizeLE.frames (h'.new id hid).1, (h'.new id hid).2⟩⟩

end Context.Finds

/-- What has been found out about frames stays true when more is recorded and more is found. -/
def Lasting (R : Heap → List FrameId → Prop) : Prop :=
  ∀ heap heap' found found', heap.Grows heap' → found ⊆ found' → R heap found → R heap' found'

/-- A list of steps that find frames. -/
theorem Analysis.mapM_finds {α : Type} {step : α → Analysis (List FrameId)}
    {R : α → Heap → List FrameId → Prop} (lasting : ∀ item, Lasting (R item)) {base ctx ctx' : Context}
    {items : List α} {results : List (List FrameId)}
    (h : ∀ item ∈ items, ∀ ctx found ctx', base.Grows ctx → step item ctx = (.ok found, ctx') →
      ctx.Finds ctx' found ∧ R item ctx'.heap found)
    (hbase : base.Grows ctx) (hrun : items.mapM step ctx = (.ok results, ctx')) :
    ctx.Finds ctx' results.flatten ∧ ∀ item ∈ items, R item ctx'.heap results.flatten := by
  induction items generalizing ctx results with
  | nil =>
    cases hrun
    exact ⟨.nil (.refl _), List.forall_mem_nil _⟩
  | cons item rest ih =>
    rw [List.mapM_cons] at hrun
    obtain ⟨found, t, hstep, hrun⟩ := Step.bind_eq_ok.mp hrun
    obtain ⟨others, u, hrest, hrun⟩ := Step.bind_eq_ok.mp hrun
    cases hrun
    obtain ⟨finds, here⟩ := h item (List.mem_cons_self ..) _ _ _ hbase hstep
    obtain ⟨findsRest, there⟩ := ih (fun item hitem => h item (List.mem_cons_of_mem _ hitem))
      (hbase.trans finds.grows) hrest
    rw [List.flatten_cons]
    refine ⟨finds.append findsRest, List.forall_mem_cons.mpr ⟨?_, fun item hitem => ?_⟩⟩
    · exact lasting item _ _ _ _ findsRest.grows.heap (List.subset_append_left ..) here
    · exact lasting item _ _ _ _ (.refl _) (List.subset_append_right ..) (there item hitem)

/-! ## Visits -/

/-- Every body is recorded in a frame of its own, behind those recorded before. -/
def Evaluator.Records (ev : Evaluator) : Prop :=
  ∀ {ctx ctx' : Context} {id : FunctionId} {function : InterpretedFunction}
    {locals : NameMap Variable} {frame : FrameId},
    ev.runBody id function locals ctx = (.ok frame, ctx') →
      ctx.heap.frames.size ≤ frame.index ∧ ctx'.heap.frames.size = frame.index + 1 ∧
        (ctx'.heap.frameAt frame).function = some id ∧
        (ctx'.heap.frameAt frame).initialLocals = locals

theorem Evaluator.atDepth_records (depth : Nat) : (atDepth depth).Records := by
  intro ctx ctx' id function locals frame h
  cases depth with
  | zero => cases h
  | succ depth => exact runIn_recorded (atDepth_mirrors (.past .empty) depth) h

section Visits

variable {ev : Evaluator} {ctx ctx' : Context} {id : FunctionId} {found : List FrameId}

theorem exists_function (interpreted : ctx.heap.isInterpreted id = true) :
    ∃ function, ctx.heap.functionAt id = .interpreted function := by
  unfold Heap.isInterpreted at interpreted
  cases h : ctx.heap.functionAt id with
  | interpreted function => exact ⟨function, rfl⟩
  | declared function =>
    rw [h] at interpreted
    cases interpreted

/-- An interpreted function is run in one new frame. -/
theorem Evaluator.analyse_eq_ok {function : InterpretedFunction} (receiver : Option Value)
    (hfunction : ctx.heap.functionAt id = .interpreted function)
    (h : ev.analyseFunction (match receiver with
      | none => .function id
      | some a => .bound a id) ctx = (.ok found, ctx')) :
    ∃ frame, found = [frame] ∧
      ev.runBody id function (function.signature.fakeArgs receiver) ctx = (.ok frame, ctx') := by
  have run : (do pure [← ev.runBody id function (function.signature.fakeArgs receiver)] :
      Analysis (List FrameId)) ctx = (.ok found, ctx') := by
    cases receiver
    all_goals
      obtain ⟨info, t, hinfo, run⟩ := Step.bind_eq_ok.mp h
      cases hinfo
      dsimp only at run
      rw [hfunction] at run
      exact run
  obtain ⟨frame, u, hbody, hpure⟩ := Step.bind_eq_ok.mp run
  cases hpure
  exact ⟨frame, rfl, hbody⟩

/-- A body that has been run leaves one more frame, which ran its function. -/
theorem Evaluator.Records.finds (records : ev.Records) (hev : ∀ E, ev.Mirrors E)
    (grown : Builtins.heap.Grows ctx.heap) {function : InterpretedFunction}
    {locals : NameMap Variable} {frame : FrameId}
    (h : ev.runBody id function locals ctx = (.ok frame, ctx')) :
    ctx.Finds ctx' [frame] ∧ ctx'.heap.Ran frame id ∧
      (ctx'.heap.frameAt frame).initialLocals = locals := by
  have grows := ((hev (.past .empty)).body ctx id function locals).grows
  rw [h] at grows
  obtain ⟨behind, last, ofFunction, bound⟩ := records h
  have recorded : frame.index < ctx'.heap.frames.size := last ▸ Nat.lt_succ_self _
  refine ⟨⟨grows, List.pairwise_singleton .., by simpa using ⟨behind, recorded⟩⟩,
    ⟨recorded, ofFunction, ?_⟩, bound⟩
  exact ((grown.trans grows.heap).sound.frames frame recorded).finished

/-- A function that is analysed by itself is run in a new frame. -/
theorem analyseFunction_finds (records : ev.Records) (hev : ∀ E, ev.Mirrors E)
    (grown : Builtins.heap.Grows ctx.heap) (interpreted : ctx.heap.isInterpreted id = true)
    (h : ev.analyseFunction (.function id) ctx = (.ok found, ctx')) :
    ctx.Finds ctx' found ∧ ∃ frame ∈ found, ctx'.heap.Ran frame id := by
  obtain ⟨function, hfunction⟩ := exists_function interpreted
  obtain ⟨frame, rfl, hbody⟩ := Evaluator.analyse_eq_ok none hfunction h
  obtain ⟨finds, ran, -⟩ := records.finds hev grown hbody
  exact ⟨finds, frame, List.mem_singleton_self _, ran⟩

/-- A function that is analysed on an instance is run in a new frame on that instance. -/
theorem analyseBound_finds (records : ev.Records) (hev : ∀ E, ev.Mirrors E)
    (grown : Builtins.heap.Grows ctx.heap) (interpreted : ctx.heap.isInterpreted id = true)
    {inst : InstanceId} (known : inst.index < ctx.heap.instances.size)
    (h : ev.analyseFunction (.bound (.instanceObject inst) id) ctx = (.ok found, ctx')) :
    ctx.Finds ctx' found ∧
      ∃ frame ∈ found, ctx'.heap.RanOn frame id (ctx.heap.instanceAt inst).cls := by
  obtain ⟨function, hfunction⟩ := exists_function interpreted
  obtain ⟨frame, rfl, hbody⟩ := Evaluator.analyse_eq_ok (some (.instanceObject inst)) hfunction h
  obtain ⟨finds, ran, bound⟩ := records.finds hev grown hbody
  have grows := finds.grows.heap
  refine ⟨finds, frame, List.mem_singleton_self _, ran, function, inst, ?_, ?_, ?_, bound⟩
  · rw [grows.functionAt (Heap.lt_of_functionAt hfunction), hfunction]
  · exact Nat.lt_of_lt_of_le known grows.sizeLE.instances
  · exact (grows.instanceAt known).1

/-- All functions of a class have been run on an instance of it. -/
structure Heap.Covered (cls : ClassId) (heap : Heap) (found : List FrameId) : Prop where
  known : cls.index < heap.classes.size
  functions : ∀ id ∈ (heap.classAt cls).functions, ∃ frame ∈ found, heap.RanOn frame id cls

theorem Heap.functions_classAt {heap heap' : Heap} (grows : heap.Grows heap') {cls : ClassId}
    (known : cls.index < heap.classes.size) :
    (heap'.classAt cls).functions = (heap.classAt cls).functions := by
  rw [ClassInfo.functions, grows.body_classAt known, ClassInfo.functions]

theorem Heap.classes_classAt {heap heap' : Heap} (grows : heap.Grows heap') {cls : ClassId}
    (known : cls.index < heap.classes.size) :
    (heap'.classAt cls).classes = (heap.classAt cls).classes := by
  rw [ClassInfo.classes, grows.body_classAt known, ClassInfo.classes]

theorem Heap.lasting_covered (cls : ClassId) : Lasting (Covered cls) := by
  intro heap heap' found found' grows more h
  refine ⟨Nat.lt_of_lt_of_le h.known grows.sizeLE.classes, fun id hid => ?_⟩
  rw [functions_classAt grows h.known] at hid
  obtain ⟨frame, hframe, ran⟩ := h.functions id hid
  exact ⟨frame, more hframe, ran.mono grows⟩

theorem Heap.lasting_ran (id : FunctionId) :
    Lasting fun heap found => ∃ frame ∈ found, heap.Ran frame id := by
  intro heap heap' found found' grows more ⟨frame, hframe, ran⟩
  exact ⟨frame, more hframe, ran.mono grows⟩

theorem Heap.lasting_ranOn (cls : ClassId) (id : FunctionId) :
    Lasting fun heap found => ∃ frame ∈ found, heap.RanOn frame id cls := by
  intro heap heap' found found' grows more ⟨frame, hframe, ran⟩
  exact ⟨frame, more hframe, ran.mono grows⟩

/-- A class of which an instance with attributes is made, or one without functions. -/
theorem Heap.instantiate_cases (heap : Heap) (cls : ClassId) :
    (heap.classAt cls).functions = [] ∨ ∃ inst,
      (heap.instantiate cls).1 = .instanceObject inst ∧
        inst.index < (heap.instantiate cls).2.instances.size ∧
        ((heap.instantiate cls).2.instanceAt inst).cls = cls := by
  by_cases built : heap.isBuilt cls = true
  · refine .inr ⟨⟨heap.instances.size⟩, ?_⟩
    rw [instantiate, if_pos built]
    simp [addInstance, instanceAt]
  · left
    unfold isBuilt ClassInfo.isBuilt at built
    rw [ClassInfo.functions, Option.not_isSome_iff_eq_none.mp built]
    rfl

/-- The functions of a class are run on one instance of it. -/
theorem analyseClass_finds (records : ev.Records) (hev : ∀ E, ev.Mirrors E)
    (grown : Builtins.heap.Grows ctx.heap) {cls : ClassId}
    (known : cls.index < ctx.heap.classes.size)
    (h : Machine.analyseClass ev cls ctx = (.ok found, ctx')) :
    ctx.Finds ctx' found ∧ Heap.Covered cls ctx'.heap found := by
  have made : ctx.heap.Grows (ctx.heap.instantiate cls).2 := .single (.instantiate cls)
  unfold Machine.analyseClass at h
  obtain ⟨receiver, t, hmade, h⟩ := Step.bind_eq_ok.mp h
  cases hmade
  obtain ⟨ids, u, hids, h⟩ := Step.bind_eq_ok.mp h
  cases hids
  obtain ⟨results, v, hrun, hpure⟩ := Step.bind_eq_ok.mp h
  cases hpure
  have madeContext : ctx.Grows { ctx with heap := (ctx.heap.instantiate cls).2 } := ⟨made, rfl, rfl⟩
  change ((ctx.heap.instantiate cls).2.classAt cls).functions.mapM
    (fun id => ev.analyseFunction (.bound (ctx.heap.instantiate cls).1 id))
    { ctx with heap := (ctx.heap.instantiate cls).2 } = _ at hrun
  have finds : Context.Finds { ctx with heap := (ctx.heap.instantiate cls).2 } ctx' results.flatten ∧
      ∀ id ∈ ((ctx.heap.instantiate cls).2.classAt cls).functions,
        ∃ frame ∈ results.flatten, ctx'.heap.RanOn frame id cls := by
    refine Analysis.mapM_finds (Heap.lasting_ranOn cls) (fun id hid now found' ctx' hnow hstep => ?_)
      (.refl _) hrun
    -- a class without attributes has no functions, so only instances are left as receivers
    rcases ctx.heap.instantiate_cases cls with none | ⟨inst, hinst, recorded, hcls⟩
    · rw [Heap.functions_classAt made known, none] at hid
      cases hid
    · rw [hinst] at hstep
      have grownNow := (grown.trans made).trans hnow.heap
      have interpreted := hnow.heap.isInterpreted ((grown.trans made).sound.classes cls id hid)
      obtain ⟨finds, ran⟩ := analyseBound_finds records hev grownNow interpreted
        (Nat.lt_of_lt_of_le recorded hnow.heap.sizeLE.instances) hstep
      rw [(hnow.heap.instanceAt recorded).1, hcls] at ran
      exact ⟨finds, ran⟩
  refine ⟨(Context.Finds.nil madeContext).append finds.1, ?_, fun id hid => finds.2 id ?_⟩
  · exact Nat.lt_of_lt_of_le known (madeContext.trans finds.1.grows).heap.sizeLE.classes
  · rwa [Heap.functions_classAt finds.1.grows.heap
      (Nat.lt_of_lt_of_le known made.sizeLE.classes)] at hid

/-! ### One visit -/

/-- Run functions, and those of classes. -/
def discover (ev : Evaluator) (functions : List FunctionId) (classes : List ClassId) :
    Analysis (List FrameId) := do
  let called ← functions.mapM fun id => ev.analyseFunction (.function id)
  let bound ← classes.mapM (Machine.analyseClass ev)
  pure (called.flatten ++ bound.flatten)

theorem discover_mirrors {E : Renaming} (hev : ev.Mirrors E) (functions : List FunctionId)
    (classes : List ClassId) :
    Step.Mirrors E.contexts ctx (discover ev functions classes)
      (discover ev (functions.map E.fn) (classes.map E.cls)) (List.map E.frame) := by
  unfold discover
  refine .bind (.mapM (r := List.map E.frame) functions fun s id _ => ?_) fun called t _ => ?_
  · exact analyseFunction_mirrors hev (.function id)
  refine .bind (.mapM (r := List.map E.frame) classes fun s cls _ => ?_) fun bound u _ => .pure ?_
  · exact Machine.analyseClass_mirrors hev cls
  · rw [List.map_append, List.map_flatten, List.map_flatten]

theorem discover_finds (records : ev.Records) (hev : ∀ E, ev.Mirrors E)
    (grown : Builtins.heap.Grows ctx.heap) {functions : List FunctionId} {classes : List ClassId}
    (interpreted : ∀ id ∈ functions, ctx.heap.isInterpreted id = true)
    (known : ∀ cls ∈ classes, cls.index < ctx.heap.classes.size)
    (h : discover ev functions classes ctx = (.ok found, ctx')) :
    ctx.Finds ctx' found ∧ (∀ id ∈ functions, ∃ frame ∈ found, ctx'.heap.Ran frame id) ∧
      ∀ cls ∈ classes, Heap.Covered cls ctx'.heap found := by
  obtain ⟨called, t, hcalled, h⟩ := Step.bind_eq_ok.mp h
  obtain ⟨bound, u, hbound, hpure⟩ := Step.bind_eq_ok.mp h
  cases hpure
  obtain ⟨findsCalled, ran⟩ := Analysis.mapM_finds (Heap.lasting_ran) (fun id hid now _ _ hnow hstep =>
    analyseFunction_finds records hev (grown.trans hnow.heap)
      (hnow.heap.isInterpreted (interpreted id hid)) hstep) (.refl ctx) hcalled
  have grownCalled := grown.trans findsCalled.grows.heap
  -- the classes come second, in the state that the functions have left
  obtain ⟨findsBound, covered⟩ := Analysis.mapM_finds Heap.lasting_covered
    (fun cls hcls now _ _ hnow hstep => analyseClass_finds records hev (grownCalled.trans hnow.heap)
      (Nat.lt_of_lt_of_le (known cls hcls)
        (findsCalled.grows.trans hnow).heap.sizeLE.classes) hstep) (.refl t) hbound
  refine ⟨findsCalled.append findsBound, fun id hid => ?_, fun cls hcls => ?_⟩
  · exact Heap.lasting_ran id _ _ _ _ findsBound.grows.heap (List.subset_append_left ..) (ran id hid)
  · exact Heap.lasting_covered cls _ _ _ _ (.refl _) (List.subset_append_right ..) (covered cls hcls)

section Analysis

variable {α β γ : Type}

theorem Machine.analysis_apply (n : Analysis α) (m : Machine) :
    analysis n m = ((n m.context).1, { m with context := (n m.context).2 }) := rfl

theorem Machine.analysis_pure (a : α) : analysis (pure a) = (pure a : MachineStep α) := rfl

theorem Machine.analysis_bind (n : Analysis α) (f : α → Analysis β) :
    analysis (n >>= f) = analysis n >>= fun a => analysis (f a) := by
  funext m
  rw [bind_apply, analysis_apply, analysis_apply, bind_apply]
  rcases n m.context with ⟨_ | a, t⟩ <;> rfl

theorem Machine.analysis_mapM (n : γ → Analysis α) (items : List γ) :
    analysis (items.mapM n) = items.mapM fun item => analysis (n item) := by
  induction items with
  | nil => rfl
  | cons item rest ih => simp only [List.mapM_cons, analysis_bind, ih, analysis_pure]

theorem Machine.analysis_eq_ok {n : Analysis α} {m m' : Machine} {a : α}
    (h : analysis n m = (.ok a, m')) : n m.context = (.ok a, m'.context) := by
  rw [analysis_apply] at h
  rcases hn : n m.context with ⟨result, t⟩
  rw [hn] at h
  cases h
  rfl

end Analysis

/-- A visit of a frame is a step of the analysis, once it is known what to run. -/
theorem Machine.visitFrame_eq (ev : Evaluator) (id : FrameId) (seen : List ClassId) :
    visitFrame ev id seen = (do
      modify fun machine => { machine with visited := machine.visited ++ [id] }
      let heap := (← get).context.heap
      let classes := unseen seen (heap.withNested (heap.frameAt id).classes)
      let found ← analysis (discover ev (heap.frameAt id).functions classes)
      pure (found, classes)) := by
  unfold visitFrame discover
  simp only [analysis_bind, analysis_mapM, analysis_pure, bind_assoc, pure_bind]

/-- A visit runs what its frame lists, and what the classes do that have not been met. -/
theorem Machine.visitFrame_eq_ok {m m' : Machine} {id : FrameId} {seen classes : List ClassId}
    (h : visitFrame ev id seen m = (.ok (found, classes), m')) :
    classes = unseen seen (m.context.heap.withNested (m.context.heap.frameAt id).classes) ∧
      m'.visited = m.visited ++ [id] ∧
      discover ev (m.context.heap.frameAt id).functions classes m.context =
        (.ok found, m'.context) := by
  have visited : (visitFrame ev id seen m).2.visited = _ := visited_visitFrame id seen m
  rw [h] at visited
  rw [visitFrame_eq] at h
  obtain ⟨_, t, hvisited, h⟩ := Step.bind_eq_ok.mp h
  cases hvisited
  obtain ⟨now, u, hnow, h⟩ := Step.bind_eq_ok.mp h
  cases hnow
  obtain ⟨ran, v, hrun, hpure⟩ := Step.bind_eq_ok.mp h
  cases hpure
  have run := analysis_eq_ok hrun
  exact ⟨rfl, visited, run⟩

/-- Classes that are reached from classes which exist, exist. -/
theorem Context.Closed.nests_lt (closed : ctx.Closed) {classes : List ClassId}
    (known : ∀ cls ∈ classes, cls.index < ctx.heap.classes.size) {cls : ClassId}
    (h : ctx.heap.Nests classes cls) : cls.index < ctx.heap.classes.size := by
  induction h with
  | listed h => exact known _ h
  | nested _ h ih => exact closed.class_classes ih h

/-- Running functions and classes that exist leaves a state closed. -/
theorem discover_closed (hev : ∀ E, ev.Mirrors E) (closed : ctx.Closed)
    {functions : List FunctionId} {classes : List ClassId}
    (interpreted : ∀ id ∈ functions, ctx.heap.isInterpreted id = true)
    (known : ∀ cls ∈ classes, cls.index < ctx.heap.classes.size) :
    (discover ev functions classes ctx).2.Closed := by
  refine closed.run (e := fun E => List.map E.frame) fun E fixes => ?_
  -- a renaming that fixes what exists changes nothing in what is to be run
  have sameFunctions : functions.map E.fn = functions := by
    refine (List.map_congr_left fun id hid => ?_).trans (List.map_id functions)
    obtain ⟨function, hfunction⟩ := exists_function (interpreted id hid)
    exact fixes.fn (Heap.lt_of_functionAt hfunction)
  have sameClasses : classes.map E.cls = classes :=
    (List.map_congr_left fun cls hcls => fixes.cls (known cls hcls)).trans (List.map_id classes)
  have mirrors : Step.Mirrors E.contexts ctx (discover ev functions classes) _ _ :=
    discover_mirrors (hev E) functions classes
  rwa [sameFunctions, sameClasses] at mirrors

end Visits

namespace Machine

/-- What is known of the frames visited, of those that wait and of the classes met. Whatever a
visited frame lists has been run, and the frames that ran it have been visited or wait. -/
structure Explored (module : FrameId) (m : Machine) (queue : List FrameId) (seen : List ClassId) :
    Prop where
  grown : Builtins.heap.Grows m.context.heap
  closed : m.context.Closed
  first : (m.visited ++ queue).head? = some module
  sorted : (m.visited ++ queue).Pairwise (·.index < ·.index)
  recorded : ∀ id ∈ m.visited ++ queue, id.index < m.context.heap.frames.size
  ran : ∀ id ∈ m.visited, ∀ f ∈ (m.context.heap.frameAt id).functions,
    ∃ frame ∈ m.visited ++ queue, m.context.heap.Ran frame f
  listed : ∀ id ∈ m.visited, (m.context.heap.frameAt id).classes ⊆ seen
  nested : ∀ outer ∈ seen, (m.context.heap.classAt outer).classes ⊆ seen
  covered : ∀ cls ∈ seen, Heap.Covered cls m.context.heap (m.visited ++ queue)

variable {ev : Evaluator} {m m' : Machine} {module id : FrameId} {queue found : List FrameId}
  {seen classes : List ClassId}

/-- One visit. What it runs waits behind the frames that wait already. -/
theorem Explored.visitFrame (records : ev.Records) (hev : ∀ E, ev.Mirrors E)
    (h : Explored module m (id :: queue) seen)
    (hvisit : Machine.visitFrame ev id seen m = (.ok (found, classes), m')) :
    Explored module m' (queue ++ found) (seen ++ classes) := by
  obtain ⟨hclasses, hvisited, hrun⟩ := visitFrame_eq_ok hvisit
  have hid : id.index < m.context.heap.frames.size := h.recorded id (by simp)
  have sound := h.grown.sound
  have interpreted := (sound.frames id hid).functions
  have reach (cls : ClassId) : cls ∈ seen ++ classes ↔
      cls ∈ seen ∨ m.context.heap.Nests (m.context.heap.frameAt id).classes cls := by
    rw [List.mem_append, hclasses, mem_unseen, Heap.mem_withNested]
    tauto
  have known : ∀ cls ∈ classes, cls.index < m.context.heap.classes.size := fun cls hcls => by
    rw [hclasses, mem_unseen, Heap.mem_withNested] at hcls
    exact h.closed.nests_lt (fun cls => h.closed.frame_classes hid) hcls.1
  obtain ⟨finds, ranNew, coveredNew⟩ := discover_finds records hev h.grown interpreted known hrun
  have closed := discover_closed hev h.closed interpreted known
  rw [hrun] at closed
  have grows := finds.grows.heap
  -- the frames visited and those that wait, with what has been found behind them
  have all : m'.visited ++ (queue ++ found) = m.visited ++ id :: queue ++ found := by
    rw [hvisited]
    simp
  have more : m.visited ++ id :: queue ⊆ m'.visited ++ (queue ++ found) := by
    rw [all]
    exact List.subset_append_left ..
  have new : found ⊆ m'.visited ++ (queue ++ found) := by
    rw [all]
    exact List.subset_append_right ..
  -- what holds of the frames visited before and of this one, by what they were, holds of all now
  have visitedNow {P : Frame → Prop}
      (before : ∀ other ∈ m.visited, P (m.context.heap.frameAt other))
      (here : P (m.context.heap.frameAt id)) :
      ∀ other ∈ m'.visited, P (m'.context.heap.frameAt other) := by
    rw [hvisited]
    refine List.forall_mem_append.mpr ⟨fun other hother => ?_, List.forall_mem_singleton.mpr ?_⟩
    · rw [grows.frameAt (h.recorded other (List.mem_append_left _ hother))]
      exact before other hother
    · rwa [grows.frameAt hid]
  refine
    { grown := h.grown.trans grows
      closed
      first := ?first
      sorted := ?sorted
      recorded := ?recorded
      ran := ?ran
      listed := ?listed
      nested := ?nested
      covered := ?covered }
  case first =>
    rw [all, List.head?_append, h.first]
    rfl
  case sorted =>
    rw [all]
    exact List.pairwise_append.mpr ⟨h.sorted, finds.sorted, fun a ha b hb =>
      Nat.lt_of_lt_of_le (h.recorded a ha) (finds.new b hb).1⟩
  case recorded =>
    rw [all]
    exact List.forall_mem_append.mpr ⟨fun a ha =>
      Nat.lt_of_lt_of_le (h.recorded a ha) grows.sizeLE.frames, fun a ha => (finds.new a ha).2⟩
  case ran =>
    refine visitedNow (P := fun frame => ∀ f ∈ frame.functions,
      ∃ run ∈ m'.visited ++ (queue ++ found), m'.context.heap.Ran run f) ?_ ?_
    · exact fun other hother f hf => Heap.lasting_ran f _ _ _ _ grows more (h.ran other hother f hf)
    · exact fun f hf => Heap.lasting_ran f _ _ _ _ (.refl _) new (ranNew f hf)
  case listed =>
    refine visitedNow (P := fun frame => frame.classes ⊆ seen ++ classes) ?_ ?_
    · exact fun other hother cls hcls => List.mem_append_left _ (h.listed other hother hcls)
    · exact fun cls hcls => (reach cls).mpr (.inr (.listed hcls))
  case nested =>
    intro outer houter cls hcls
    have knownOuter : outer.index < m.context.heap.classes.size := by
      rcases List.mem_append.mp houter with houter | houter
      · exact (h.covered outer houter).known
      · exact known outer houter
    rw [Heap.classes_classAt grows knownOuter] at hcls
    rcases (reach outer).mp houter with houter | houter
    · exact List.mem_append_left _ (h.nested outer houter hcls)
    · exact (reach cls).mpr (.inr (.nested houter hcls))
  case covered =>
    refine List.forall_mem_append.mpr ⟨fun cls hcls => ?_, fun cls hcls => ?_⟩
    · exact Heap.lasting_covered cls _ _ _ _ grows more (h.covered cls hcls)
    · exact Heap.lasting_covered cls _ _ _ _ (.refl _) new (coveredNew cls hcls)

/-- Visits until no frame waits. -/
theorem Explored.visit (records : ev.Records) (hev : ∀ E, ev.Mirrors E) {fuel : Nat}
    (h : Explored module m queue seen) (hvisit : Machine.visit ev fuel queue seen m = (.ok (), m')) :
    ∃ seen', Explored module m' [] seen' := by
  induction fuel generalizing m queue seen with
  | zero =>
    cases queue with
    | nil =>
      cases hvisit
      exact ⟨seen, h⟩
    | cons id rest => cases hvisit
  | succ fuel ih =>
    cases queue with
    | nil =>
      cases hvisit
      exact ⟨seen, h⟩
    | cons id rest =>
      obtain ⟨⟨found, classes⟩, t, hframe, hvisit⟩ := Step.bind_eq_ok.mp hvisit
      exact ih (h.visitFrame records hev hframe) hvisit

/-- A machine that has run its module is about to visit the frame of the module. -/
theorem Explored.start (hev : ∀ E, ev.Mirrors E) {options : Options} {code : Code}
    (run : runModuleWith ev code (.new options) = (.ok module, m)) :
    Explored module { m with phase := .defAnalysis } [module] [] := by
  obtain ⟨-, ctx, hrecord, rfl⟩ := runModuleWith_eq_ok.mp run
  change recordModule ev code ⟨0, []⟩ { Context.new options with roots := 1 } = _ at hrecord
  have mirrors (E : Renaming) := recordModule_mirrors (hev E) code ⟨0, []⟩
    { Context.new options with roots := 1 }
  have grows := (mirrors (.past .empty)).grows
  have closed : Context.Closed { Context.new options with roots := 1 } :=
    Context.closed_builtins rfl rfl
  replace closed := closed.run (e := fun E => E.frame) fun E _ => mirrors E
  rw [hrecord] at grows closed
  have recorded : module.index < ctx.heap.frames.size := by
    obtain ⟨frame, t, -, hadd⟩ := Step.bind_eq_ok.mp hrecord
    cases hadd
    simp
  exact
    { grown := grows.heap
      closed
      first := rfl
      sorted := List.pairwise_singleton ..
      recorded := List.forall_mem_singleton.mpr recorded
      ran := List.forall_mem_nil _
      listed := List.forall_mem_nil _
      nested := List.forall_mem_nil _
      covered := List.forall_mem_nil _ }

/-- What the analysis of definitions has reached when it comes to an end. The frames visited start
with that of the module and come in the order in which they were recorded, so none comes twice.
Every function that one of them lists has been run in another one, and so has every function of the
classes that it lists and of those nested in these, each on an instance of its class. -/
theorem analyseDefinitions_complete {options : Options} {code : Code} {depth limit : Nat}
    (run : runModuleWith (.atDepth depth) code (.new options) = (.ok module, m))
    (analysed : analyseDefinitionsWithin (.atDepth depth) limit m = (.ok (), m')) :
    m'.visited.head? = some module ∧ m'.visited.Pairwise (·.index < ·.index) ∧
      ∀ id ∈ m'.visited,
        (∀ f ∈ (m'.context.heap.frameAt id).functions,
          ∃ frame ∈ m'.visited, m'.context.heap.Ran frame f) ∧
        ∀ cls, m'.context.heap.Nests (m'.context.heap.frameAt id).classes cls →
          ∀ f ∈ (m'.context.heap.classAt cls).functions,
            ∃ frame ∈ m'.visited, m'.context.heap.RanOn frame f cls := by
  have hev (E : Renaming) := Evaluator.atDepth_mirrors E depth
  have records : (Evaluator.atDepth depth).Records := Evaluator.atDepth_records depth
  obtain ⟨hphase, hmodule⟩ := runModuleWith_ready run
  rw [analyseDefinitionsWithin_apply hphase hmodule] at analysed
  rcases hvisit : Machine.visit (.atDepth depth) limit [module] []
    { m with phase := .defAnalysis } with ⟨fault | _, last⟩ <;> rw [hvisit] at analysed <;>
    cases analysed
  obtain ⟨seen, explored⟩ := (Explored.start hev run).visit records hev hvisit
  obtain ⟨-, -, first, sorted, -, ran, listed, nested, covered⟩ := explored
  rw [List.append_nil] at first sorted ran covered
  refine ⟨first, sorted, fun id hid => ⟨ran id hid, fun cls reached => ?_⟩⟩
  have met : cls ∈ seen := by
    induction reached with
    | listed h => exact listed id hid h
    | nested _ h ih => exact nested _ ih h
  exact (covered cls met).functions

/-- The code of a module that defines a class with a class nested in it, which has a method. -/
def nestingModule : Code :=
  let method := ((CodeBuilder.new "m").addParams ["self"]).returnNone.build
  let inner := ((CodeBuilder.classBody "C.D").defFunction method "m").returnNone.build
  let outer := ((CodeBuilder.classBody "C").defClass inner "D" []).returnNone.build
  (CodeBuilder.module.defClass outer "C" []).returnNone.build

/-- The method is found through both classes and runs on an instance of the inner one. -/
theorem nestingModule_complete : ∃ id m m', runModule nestingModule (.new .standard) = (.ok id, m) ∧
    analyseDefinitions m = (.ok (), m') ∧ (m'.context.heap.classAt ⟨21⟩).functions = [⟨18⟩] ∧
      ∃ frame ∈ m'.visited, m'.context.heap.RanOn frame ⟨18⟩ ⟨21⟩ := by
  obtain ⟨id, m, run⟩ := Step.exists_of_isOk
    (r := runModule nestingModule (.new .standard)) (by decide +kernel)
  have hm : m = (runModule nestingModule (.new .standard)).2 := by rw [run]
  obtain ⟨_, m', analysed⟩ := Step.exists_of_isOk
    (r := analyseDefinitions m) (by rw [hm]; decide +kernel)
  have hm' : m' = (analyseDefinitions m).2 := by rw [analysed]
  have visited : m'.visited.head? = some ⟨2⟩ := by rw [hm', hm]; decide +kernel
  have outer : ⟨22⟩ ∈ (m'.context.heap.frameAt ⟨2⟩).classes := by rw [hm', hm]; decide +kernel
  have inner : ⟨21⟩ ∈ (m'.context.heap.classAt ⟨22⟩).classes := by rw [hm', hm]; decide +kernel
  have method : (m'.context.heap.classAt ⟨21⟩).functions = [⟨18⟩] := by rw [hm', hm]; decide +kernel
  obtain ⟨-, -, found⟩ := analyseDefinitions_complete run analysed
  refine ⟨id, m, m', run, analysed, method, ?_⟩
  exact (found ⟨2⟩ (List.mem_of_mem_head? visited)).2 ⟨21⟩ (.nested (.listed outer) inner) ⟨18⟩
    (by simp [method])

end Machine

end StubInference
