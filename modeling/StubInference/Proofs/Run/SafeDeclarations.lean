import StubInference.Proofs.Run.Receiver
import StubInference.Proofs.Run.SafeFrames
import StubInference.Proofs.Stub.WellFormed

/-!
# Declarations are safe

Whatever a filled heap declares is well-formed: the types of a declaration are those of values in the
heap, and these are filled whenever they are looked at, before the functions of a class have run and
behind them.

## Main definitions

* `DeclaredBody.WellFormed` — a body of a class declaration that is well-formed so far

## Main results

* `declareFunction_safe`, `declareClass_safe` — functions and classes
* `Machine.definitionsOf_safe` — the definitions of a module
-/

namespace StubInference

open Step

variable {ev : Evaluator} {heap : Heap}

/-! ## Functions -/

theorem wellFormed_defaultType {default : Option Variable} (h : ∀ v ∈ default, v.Filled) :
    (defaultType heap default).WellFormed := by
  cases default with
  | none => exact .anything
  | some v =>
    unfold defaultType
    dsimp only
    split
    · exact .anything
    · exact (h v rfl).wellFormed_type

theorem wellFormed_declareParameters {sig : Signature} (h : sig.defaults.All Variable.Filled) :
    ∀ parameter ∈ declareParameters heap sig, parameter.type.WellFormed := by
  have each (kind : Stub.ParameterKind) (name : String) :
      (declareParameter heap sig kind name).type.WellFormed :=
    wellFormed_defaultType fun v hv => h.get? hv
  simp only [declareParameters, List.mem_append, List.mem_map]
  rintro _ ((⟨name, -, rfl⟩ | ⟨name, -, rfl⟩) | ⟨name, -, rfl⟩) <;> exact each _ name

/-- What frames returned has a type, unless none of them returned. -/
theorem wellFormed_returnType_or (h : heap.Filled) (frames : List FrameId) :
    (returnType heap frames).WellFormed ∧ (∃ id ∈ frames, (heap.frameAt id).returned? ≠ none) ∨
      returnType heap frames = .nothing ∧ ∀ id ∈ frames, (heap.frameAt id).returned? = none := by
  unfold returnType
  dsimp only
  cases returned : frames.filterMap fun id => (heap.frameAt id).returned? with
  | nil => exact .inr ⟨rfl, List.filterMap_eq_nil_iff.mp returned⟩
  | cons v rest =>
    have somewhere (w : Variable) (hw : w ∈ v :: rest) :
        ∃ id ∈ frames, (heap.frameAt id).returned? = some w := by
      rw [← returned] at hw
      exact List.mem_filterMap.mp hw
    refine .inl ⟨wellFormed_unionAll_map (v :: rest) _ (List.cons_ne_nil v rest) fun w hw => ?_, ?_⟩
    · obtain ⟨id, -, hreturned⟩ := somewhere w hw
      exact ((h.frames id).returned? hreturned).wellFormed_type
    · obtain ⟨id, hid, hreturned⟩ := somewhere v (List.mem_cons_self ..)
      exact ⟨id, hid, by rw [hreturned]; exact Option.some_ne_none v⟩

/-- The type of nothing is what frames returned that never did. -/
theorem returnType_eq_nothing_iff (h : heap.Filled) (frames : List FrameId) :
    returnType heap frames = .nothing ↔ ∀ id ∈ frames, (heap.frameAt id).returned? = none := by
  rcases wellFormed_returnType_or h frames with ⟨wellFormed, id, hid, returned⟩ | ⟨nothing, none⟩
  · refine ⟨fun nothing => ?_, fun none => absurd (none id hid) returned⟩
    rw [nothing] at wellFormed
    cases wellFormed
  · exact ⟨fun _ => none, fun _ => nothing⟩

/-- The defaults of a function of a filled heap are filled. -/
theorem Heap.Filled.interpreted? (h : heap.Filled) {value : Value} {id : FunctionId}
    {function : InterpretedFunction} (found : heap.interpreted? value = some (id, function)) :
    function.signature.defaults.All Variable.Filled := by
  have defaults := (h.functions id).defaults
  rwa [Heap.interpreted?_eq_some found] at defaults

theorem declareFunction_safe (hev : ev.Safe) (name : String) {value : Value} (hvalue : value.Filled)
    {function : InterpretedFunction}
    (hdefaults : function.signature.defaults.All Variable.Filled) :
    Step.Safe Context.Filled (declareFunction ev name value function)
      Stub.Function.WellFormed := by
  refine .bind (analyseFunction_safe hev hvalue) fun frames _ => .bind .get fun ctx hctx => .pure ?_
  refine List.forall_mem_singleton.mpr ⟨wellFormed_declareParameters hdefaults, ?_, ?_,
    (wellFormed_returnType_or hctx frames).imp And.left And.left⟩ <;>
  · intro parameter hparameter
    obtain ⟨name, -, rfl⟩ := Option.mem_map.mp hparameter
    exact .anything

/-! ## Classes -/

/-- The declarations of a body are well-formed so far. -/
structure DeclaredBody.WellFormed (body : DeclaredBody) : Prop where
  constants : ∀ declared ∈ body.constants, declared.type.WellFormed
  methods : ∀ method ∈ body.methods, method.WellFormed
  classes : ∀ cls ∈ body.classes, cls.WellFormed

namespace DeclaredBody.WellFormed

variable {body : DeclaredBody}

theorem empty : WellFormed ⟨[], [], []⟩ :=
  ⟨List.forall_mem_nil _, List.forall_mem_nil _, List.forall_mem_nil _⟩

theorem addConstant (h : body.WellFormed) (name : String) {value : Value} (hvalue : value.Filled) :
    Step.Safe Context.Filled (body.addConstant name value) WellFormed :=
  .bind (Analysis.safe_fromHeap fun _ _ => hvalue.wellFormed_type) fun _ htype => .pure
    { h with constants := List.forall_mem_append.mpr ⟨h.constants, List.forall_mem_singleton.mpr htype⟩ }

theorem addMethod (h : body.WellFormed) {method : Stub.Function} (hmethod : method.WellFormed) :
    WellFormed { body with methods := body.methods ++ [method] } :=
  { h with methods := List.forall_mem_append.mpr ⟨h.methods, List.forall_mem_singleton.mpr hmethod⟩ }

theorem addClass (h : body.WellFormed) {cls : Stub.Class} (hcls : cls.WellFormed) :
    WellFormed { body with classes := body.classes ++ [cls] } :=
  { h with classes := List.forall_mem_append.mpr ⟨h.classes, List.forall_mem_singleton.mpr hcls⟩ }

end DeclaredBody.WellFormed

theorem declareMember_safe (hev : ev.Safe) (hheap : heap.Filled) (info : ClassInfo)
    {receiver : Value} (hreceiver : receiver.Filled) {init : Option Stub.Function}
    (hinit : ∀ method ∈ init, method.WellFormed) {nested : ClassId → Option (Analysis Stub.Class)}
    (hnested : ∀ cls declaration, nested cls = some declaration →
      Step.Safe Context.Filled declaration Stub.Class.WellFormed)
    {body : DeclaredBody} (hbody : body.WellFormed) {member : String × Value}
    (hmember : member.2.Filled) :
    Step.Safe Context.Filled (declareMember ev heap info receiver init nested body member)
      DeclaredBody.WellFormed := by
  obtain ⟨name, value⟩ := member
  unfold declareMember
  refine .ite (fun _ => .pure hbody) fun _ => ?_
  split
  case h_1 id function found =>
    refine .bind ?_ fun method hmethod => .pure (hbody.addMethod hmethod)
    -- a constructor is known already
    cases known : (if name = "__init__" then init else none) with
    | some method =>
      have hknown : method ∈ init := by
        split at known
        · exact known
        · cases known
      exact .pure (hinit method hknown)
    | none => exact declareFunction_safe hev name (hreceiver.bind id) (hheap.interpreted? found)
  case h_2 _ _ cls _ =>
    split
    case h_1 declaration known =>
      split at known
      · exact .bind (hnested cls declaration known) fun _ hcls => .pure (hbody.addClass hcls)
      · cases known
    case h_2 => exact hbody.addConstant name hmember
  case h_3 => exact hbody.addConstant name hmember

theorem declareConstructor_safe (hev : ev.Safe) (hheap : heap.Filled) (info : ClassInfo)
    {receiver : Value} (hreceiver : receiver.Filled) :
    Step.Safe Context.Filled (declareConstructor ev heap info receiver)
      fun init => ∀ method ∈ init, method.WellFormed := by
  unfold declareConstructor
  split
  case h_1 id function found =>
    obtain ⟨value, -, interpreted⟩ := Option.bind_eq_some_iff.mp found
    rw [map_eq_pure_bind]
    refine .bind (declareFunction_safe hev _ (hreceiver.bind id) (hheap.interpreted? interpreted))
      fun method hmethod => .pure ?_
    rintro _ ⟨⟩
    exact hmethod
  case h_2 => exact .pure nofun

theorem wellFormed_keywordType {value : Value} (h : value.Filled) :
    (keywordType heap value).WellFormed := by
  unfold keywordType
  split
  · exact .named _
  · exact h.wellFormed_type

theorem ClassInfo.Filled.allKeywords {info : ClassInfo} (h : info.Filled) :
    ((info.body.map ClassBody.keywords).getD []).All Value.Filled := by
  cases built : info.body with
  | none => exact .nil
  | some body => exact h.keywords body built

theorem wellFormed_attributeConstants (h : heap.Filled) (info : ClassInfo) (receiver : Value) :
    ∀ declared ∈ attributeConstants heap info receiver, declared.type.WellFormed := by
  unfold attributeConstants
  split
  case h_1 id =>
    refine List.forall_mem_map.mpr fun entry hentry => ?_
    exact (h.instances id entry (List.mem_of_mem_filter hentry)).wellFormed_type
  case h_2 => exact List.forall_mem_nil _

/-- A class declares only older ones inside, so the induction is on its age. -/
theorem declareClass_safe (hev : ev.Safe) (cls : ClassId) :
    Step.Safe Context.Filled (declareClass ev cls) Stub.Class.WellFormed := by
  induction h : cls.index using Nat.strongRecOn generalizing cls with
  | _ index ih =>
    subst h
    rw [declareClass]
    refine .bind .get fun ctx hctx => .bind (instantiate_fresh_safe cls) fun receiver hreceiver => ?_
    have hinfo := hctx.classes cls
    refine .bind (declareConstructor_safe hev hctx _ hreceiver) fun init hinit => ?_
    refine .bind (.foldlM DeclaredBody.WellFormed.empty fun body member hmember hbody => ?_)
      fun body hbody => .bind .get fun after hafter => .pure ?_
    · refine declareMember_safe hev hctx _ hreceiver hinit (fun other declaration found => ?_) hbody
        (hinfo.members member hmember)
      split at found
      case isTrue younger =>
        cases found
        exact ih other.index younger other rfl
      case isFalse => cases found
    · exact .intro (List.forall_mem_map.mpr fun _ _ => .named _)
        (hinfo.allKeywords.mapValues fun _ => wellFormed_keywordType)
        (List.forall_mem_append.mpr ⟨hbody.constants, wellFormed_attributeConstants hafter _ _⟩)
        hbody.methods hbody.classes

theorem declareWith?_safe (hev : ev.Safe) {value : Value} (hvalue : value.Filled) :
    Step.Safe Context.Filled (declareWith? ev value)
      fun declared => ∀ definition ∈ declared, definition.WellFormed := by
  refine .bind .get fun ctx hctx => ?_
  dsimp only
  split
  case h_1 id function found =>
    refine .bind (declareFunction_safe hev _ hvalue (hctx.interpreted? found)) fun declared hd =>
      .pure ?_
    rintro _ ⟨⟩
    exact hd
  case h_2 _ _ cls _ =>
    refine .ite (fun _ => ?_) fun _ => .pure nofun
    refine .bind (declareClass_safe hev cls) fun declared hd => .pure ?_
    rintro _ ⟨⟩
    exact hd
  case h_3 => exact .pure nofun

/-! ## Modules -/

namespace Machine

theorem definitionOf_safe (hev : ev.Safe) (name : String) {v : Variable} (hv : v.Filled) :
    Step.Safe Context.Filled (definitionOf ev name v) Stub.Definition.WellFormed := by
  refine .ite (fun _ => .bind (declareWith?_safe hev hv.joined) fun declared hdeclared => ?_)
    fun _ => .bind (Q := fun declared => ∀ definition ∈ declared, definition.WellFormed)
      (.pure nofun) fun declared hdeclared => ?_
  all_goals
    dsimp only
    cases found : declared.filter (·.name = name) with
    | some definition =>
      exact .pure (hdeclared definition (Option.eq_some_of_filter_eq_some found))
    | none => exact Analysis.safe_fromHeap fun _ _ => hv.joined.wellFormed_type

/-- The definitions of a module are well-formed. -/
theorem definitionsOf_safe (hev : ev.Safe) {names : NameMap Variable}
    (hnames : names.All Variable.Filled) :
    Step.Safe Context.Filled (definitionsOf ev names)
      fun definitions => ∀ definition ∈ definitions, definition.WellFormed :=
  .mapM fun entry hentry => definitionOf_safe hev entry.1
    (hnames entry (List.mem_of_mem_filter hentry))

end Machine

end StubInference
