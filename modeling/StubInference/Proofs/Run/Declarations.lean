import StubInference.Proofs.Renaming.Stages
import StubInference.Proofs.Run.Shadows

/-!
# Declarations from sound states

Declaring a class runs its methods and goes on to the classes of its body. All classes link to older
ones in a sound state, so going on comes to an end by itself: the comparison of ages that the
declaration makes never turns a class away.

## Main definitions

* `declareClassBy` — the declaration of a class that goes on to the classes of its body as given
* `declareClassFreely` — the declaration that goes on to every class of a body, whatever its age

## Main results

* `declareClassFreely_shadows` — going on freely comes to an end, and declares the same
* `definitionsOf_shadows` — declarations under another evaluator
-/

namespace StubInference

open Step
open Realm (contexts)

variable {base : Heap} {ctx : Context} {ev ev' : Evaluator}

theorem Realm.Good.weaken {base' : Heap} (good : contexts.Good base' ctx) (h : base.SizeLE base') :
    contexts.Good base ctx :=
  ⟨h.trans good.base, good.large, good.named, good.layered⟩

/-! ## Classes that go on -/

/-- The declaration of a class that goes on to the classes of its body as given. -/
def declareClassBy (ev : Evaluator) (nested : ClassId → Option (Analysis Stub.Class))
    (cls : ClassId) : Analysis Stub.Class := do
  let heap := (← get).heap
  let info := heap.classAt cls
  let bases := info.bases.map heap.classType
  let keywords := ((info.body.map ClassBody.keywords).getD []).mapValues (keywordType heap)
  let receiver ← Analysis.withHeap (·.instantiate cls)
  let init ← declareConstructor ev heap info receiver
  let body ← info.members.foldlM (declareMember ev heap info receiver init nested) ⟨[], [], []⟩
  let heap := (← get).heap
  pure (.mk info.name bases keywords (body.constants ++ attributeConstants heap info receiver)
    body.methods body.classes)

/-- The declaration of a class that goes on to every class of its body, whatever its age. It ends in a
fault where it goes on too often. -/
def declareClassFreely (ev : Evaluator) (endless : Fault) : (fuel : Nat) → ClassId → Analysis Stub.Class
  | 0, _ => throw endless
  | fuel + 1, cls => declareClassBy ev (fun other => some (declareClassFreely ev endless fuel other)) cls

/-- A class goes on to older ones only. -/
def declareOlder (ev : Evaluator) (cls other : ClassId) : Option (Analysis Stub.Class) :=
  if other.index < cls.index then some (declareClass ev other) else none

theorem declareClass_eq (ev : Evaluator) (cls : ClassId) :
    declareClass ev cls = declareClassBy ev (declareOlder ev cls) cls := by
  rw [declareClass]
  rfl

/-! ## Functions -/

theorem analyseFunction_settled (hev : ∀ E : Renaming, ev.Mirrors E) {a : Value}
    (ha : ctx.heap.Holds Value.rename a) :
    contexts.Mirrors ctx (ev.analyseFunction a) fun E => List.map E.frame :=
  .of_eq (fun E _ => analyseFunction_mirrors (hev E) a) fun E fixes => by rw [ha E fixes]

theorem declareFunction_settled (hev : ∀ E : Renaming, ev.Mirrors E) {a : Value}
    {function : InterpretedFunction} (ha : ctx.heap.Holds Value.rename a)
    (hfunction : ctx.heap.Holds InterpretedFunction.rename function) (name : String) :
    contexts.Mirrors ctx (declareFunction ev name a function) fun _ => id :=
  .of_eq (fun E _ => declareFunction_mirrors (hev E) name a function) fun E fixes => by
    rw [ha E fixes, hfunction E fixes]

section Evaluators

variable (hev : ev.Shadows base ev')
include hev

theorem declareFunction_shadows (good : contexts.Good base ctx) {a : Value}
    (ha : ctx.heap.Holds Value.rename a) (name : String) (function : InterpretedFunction) :
    contexts.Shadows ctx (declareFunction ev name a function)
      (declareFunction ev' name a function) := by
  refine .bind good (analyseFunction_settled hev.mirrors ha) (analyseFunction_shadows hev good ha)
    fun frames t _ good₁ _ _ => ?_
  exact .read (a := t) rfl (.pure good₁ _)

theorem declareMethod_shadows (good : contexts.Good base ctx) {receiver : Value} {id : FunctionId}
    (hreceiver : ctx.heap.Holds Value.rename receiver) (hid : ctx.heap.Holds Renaming.fn id)
    (name : String) (function : InterpretedFunction) (known : Option Stub.Function) :
    contexts.Shadows ctx (declareMethod ev name receiver id function known)
      (declareMethod ev' name receiver id function known) := by
  cases known with
  | some method => exact .pure good _
  | none =>
    refine declareFunction_shadows hev good (fun E fixes => ?_) name function
    rw [← Value.bind_rename, hreceiver E fixes, hid E fixes]

end Evaluators

theorem addConstant_reads (body : DeclaredBody) (name : String) (a : Value) :
    Analysis.Reads (body.addConstant name a) :=
  .bind (.fromHeap _) fun _ => .pure _

/-! ## Classes -/

namespace Realm.Good

/-- The members of a class that is known are known. -/
theorem members (good : contexts.Good base ctx) {cls : ClassId}
    (hcls : ctx.heap.Holds Renaming.cls cls) :
    ∀ member ∈ (ctx.heap.classAt cls).members, ctx.heap.Holds Value.rename member.2 :=
  fun member hmember E fixes =>
    mapValues_eq_self.mp (congrArg ClassInfo.members (good.classAt hcls E fixes)) member hmember

theorem interpreted? (good : contexts.Good base ctx) {a : Value}
    {entry : FunctionId × InterpretedFunction} (ha : ctx.heap.Holds Value.rename a)
    (h : ctx.heap.interpreted? a = some entry) :
    ctx.heap.Holds Renaming.fn entry.1 ∧ ctx.heap.Holds InterpretedFunction.rename entry.2 := by
  have same (E : Renaming) (fixes : E.Fixes ctx.heap) :
      Prod.map E.fn (InterpretedFunction.rename E) entry = entry := by
    have same := (good.heap_matches fixes).interpreted? a
    rw [ha E fixes, h] at same
    exact (Option.some.inj same).symm
  exact ⟨fun E fixes => congrArg Prod.fst (same E fixes), fun E fixes => congrArg Prod.snd (same E fixes)⟩

end Realm.Good

theorem declareOlder_mirrors {E : Renaming} (hev : ev.Mirrors E) (cls other : ClassId) :
    (declareOlder ev cls other = none ∧ declareOlder ev (E.cls cls) (E.cls other) = none) ∨
      ∃ m n, declareOlder ev cls other = some m ∧
        declareOlder ev (E.cls cls) (E.cls other) = some n ∧
        Step.Mirrors E.contexts ctx m n id := by
  have younger : (E.cls other).index < (E.cls cls).index ↔ other.index < cls.index :=
    E.classes.strictMono.lt_iff_lt
  by_cases hlt : other.index < cls.index
  · exact .inr ⟨_, _, if_pos hlt, if_pos (younger.mpr hlt), declareClass_mirrors hev other⟩
  · exact .inl ⟨if_neg hlt, if_neg (hlt ∘ younger.mp)⟩

theorem declareClass_settled (hev : ∀ E : Renaming, ev.Mirrors E) {cls : ClassId}
    (hcls : ctx.heap.Holds Renaming.cls cls) :
    contexts.Mirrors ctx (declareClass ev cls) fun _ => id :=
  .of_eq (fun E _ => declareClass_mirrors (hev E) cls) fun E fixes => by rw [hcls E fixes]

section Class

variable {cls : ClassId} {receiver : Value} {t : Context}

section Settled

variable (hev : ∀ E : Renaming, ev.Mirrors E) (past : contexts.Good base ctx)
  (hcls : ctx.heap.Holds Renaming.cls cls) (le : ctx.heap.SizeLE t.heap)
  (hreceiver : t.heap.Holds Value.rename receiver)
include hev past hcls le hreceiver

theorem declareConstructor_settled :
    contexts.Mirrors t (declareConstructor ev ctx.heap (ctx.heap.classAt cls) receiver) fun _ => id :=
  .of_eq (fun E fixes => declareConstructor_mirrors (hev E) (past.heap_matches (fixes.mono le))
    (ctx.heap.classAt cls) receiver) fun E fixes => by
      rw [past.classAt hcls E (fixes.mono le), hreceiver E fixes]

/-- The members of a class are declared alike wherever a state has grown to. -/
theorem declareMember_settled (init : Option Stub.Function) (E : Renaming) (fixes : E.Fixes t.heap)
    (s : Context) (body : DeclaredBody) (member : String × Value) : Step.Mirrors E.contexts s
    (declareMember ev ctx.heap (ctx.heap.classAt cls) receiver init (declareOlder ev cls) body member)
    (declareMember ev ctx.heap (ctx.heap.classAt cls) receiver init (declareOlder ev cls) body
      (Prod.map id (Value.rename E) member)) id := by
  have mirrored : Step.Mirrors E.contexts s _ _ _ := declareMember_mirrors (hev E)
    (past.heap_matches (fixes.mono le)) (ctx.heap.classAt cls) receiver init
    (declareOlder_mirrors (hev E) cls) body member
  rwa [past.classAt hcls E (fixes.mono le), hreceiver E fixes, hcls.mono le E fixes] at mirrored

end Settled

section Members

variable (hev : ev.Shadows base ev') (past : contexts.Good base ctx) (good : contexts.Good base t)
  (le : ctx.heap.SizeLE t.heap) {info : ClassInfo} (hreceiver : t.heap.Holds Value.rename receiver)
include hev past good le hreceiver

theorem declareConstructor_shadows
    (hmembers : ∀ member ∈ info.members, ctx.heap.Holds Value.rename member.2) :
    contexts.Shadows t (declareConstructor ev ctx.heap info receiver)
      (declareConstructor ev' ctx.heap info receiver) := by
  unfold declareConstructor
  cases found : (info.members.get? "__init__").bind ctx.heap.interpreted? with
  | none => exact .pure good _
  | some entry =>
    obtain ⟨a, hmember, hentry⟩ := Option.bind_eq_some_iff.mp found
    obtain ⟨hid, hfunction⟩ :=
      past.interpreted? (hmembers _ (NameMap.mem_of_get? hmember)) hentry
    have hbound : t.heap.Holds Value.rename (Value.bind receiver entry.1) := fun E fixes => by
      rw [← Value.bind_rename, hreceiver E fixes, hid.mono le E fixes]
    obtain ⟨method, function⟩ := entry
    dsimp only
    rw [map_eq_pure_bind, map_eq_pure_bind]
    exact .answer good (declareFunction_settled hev.mirrors hbound (hfunction.mono le) "__init__")
      (declareFunction_shadows hev good hbound "__init__" function) _

/-- A class of the body is declared in a way that keeps classes in layers. -/
theorem declareMember_shadows (init : Option Stub.Function)
    {nested nested' : ClassId → Option (Analysis Stub.Class)}
    (hnested : ∀ other ∈ info.classes, t.heap.Holds Renaming.cls other →
      ∃ m n, nested other = some m ∧ nested' other = some n ∧
        contexts.Mirrors t m (fun _ => id) ∧ contexts.Shadows t m n)
    (body : DeclaredBody) {member : String × Value}
    (hmember : ctx.heap.Holds Value.rename member.2) :
    contexts.Shadows t (declareMember ev ctx.heap info receiver init nested body member)
      (declareMember ev' ctx.heap info receiver init nested' body member) := by
  obtain ⟨name, a⟩ := member
  unfold declareMember
  dsimp only at hmember ⊢
  refine .ite (fun _ => .pure good _) fun _ => ?_
  cases hentry : ctx.heap.interpreted? a with
  | some entry =>
    obtain ⟨hid, hfunction⟩ := past.interpreted? hmember hentry
    have settled : contexts.Mirrors t (declareMethod ev name receiver entry.1 entry.2
        (if name = "__init__" then init else none)) fun _ => id :=
      .of_eq (fun E _ => declareMethod_mirrors (hev.mirrors E) name receiver entry.1 entry.2 _)
        fun E fixes => by
          rw [hreceiver E fixes, hid.mono le E fixes, hfunction.mono le E fixes]
    exact .answer good settled
      (declareMethod_shadows hev good hreceiver (hid.mono le) name entry.2 _) _
  | none =>
    cases a with
    | classObject other =>
      have hother : t.heap.Holds Renaming.cls other := fun E fixes =>
        Value.classObject.inj (hmember.mono le E fixes)
      by_cases inside : other ∈ info.classes
      · obtain ⟨m, n, hm, hn, mirrors, shadows⟩ := hnested other inside hother
        simp only [if_pos inside, hm, hn]
        exact .answer good mirrors shadows _
      · simp only [if_neg inside]
        exact (addConstant_reads body name _).shadows good
    | _ => exact (addConstant_reads body name _).shadows good

end Members

variable (hev : ev.Shadows base ev')
include hev

/-- The declaration of a class, where going on to an older one is known to shadow its declaration. -/
theorem declareClassBy_shadows (good : contexts.Good base ctx) (hcls : ctx.heap.Holds Renaming.cls cls)
    {next : ClassId → Option (Analysis Stub.Class)}
    (hnext : ∀ other : ClassId, other.index < cls.index → ∃ n, next other = some n ∧
      ∀ {t : Context}, contexts.Good base t → t.heap.Holds Renaming.cls other →
        contexts.Shadows t (declareClass ev other) n) :
    contexts.Shadows ctx (declareClass ev cls) (declareClassBy ev' next cls) := by
  rw [declareClass_eq, declareClassBy, declareClassBy]
  refine .read (a := ctx) rfl ?_
  refine .bind good (instantiate_settled hcls) (withInstance_shadows good hcls)
    fun receiver t _ good' le hreceiver => ?_
  have hmembers := good.members hcls
  refine .bind good' (declareConstructor_settled hev.mirrors good hcls le hreceiver)
    (declareConstructor_shadows hev good good' le hreceiver hmembers) fun init u _ good₁ le₁ _ => ?_
  have le₂ := le.trans le₁
  have members : ∀ member ∈ (ctx.heap.classAt cls).members,
      u.heap.Holds (fun E => Prod.map id (Value.rename E)) member := fun member hmember E fixes =>
    Prod.ext rfl ((hmembers member hmember).mono le₂ E fixes)
  -- the members are declared one after the other, in states that have grown from this one
  have mirrors := declareMember_settled hev.mirrors good hcls le₂ (hreceiver.mono le₁) init
  refine .bind good₁ (.foldlM _ _ mirrors members)
    (.foldlM _ _ good₁.rebase mirrors members fun s body member good₂ hmember hknown => ?_)
    fun body s _ good₂ _ _ => ?_
  · refine declareMember_shadows hev good (good₂.weaken good₁.base) (le₂.trans good₂.base)
      ((hreceiver.mono le₁).mono good₂.base) init (fun other inside hother => ?_) body
      (hmembers member hmember)
    have older : other.index < cls.index :=
      good.layered.lt (List.mem_append_right _ inside)
    obtain ⟨n, hn, shadows⟩ := hnext other older
    exact ⟨_, n, if_pos older, hn, declareClass_settled hev.mirrors hother,
      shadows (good₂.weaken good₁.base) hother⟩
  · exact .read (a := s) rfl (.pure good₂ _)

theorem declareClass_shadows (good : contexts.Good base ctx) (hcls : ctx.heap.Holds Renaming.cls cls) :
    contexts.Shadows ctx (declareClass ev cls) (declareClass ev' cls) := by
  induction hage : cls.index using Nat.strongRecOn generalizing cls ctx with
  | _ index ih =>
    subst hage
    rw [declareClass_eq ev']
    exact declareClassBy_shadows hev good hcls fun other older =>
      ⟨_, if_pos older, fun good hother => ih other.index older good hother rfl⟩

/-- Going on to every class of a body comes to an end, and declares the same. -/
theorem declareClassFreely_shadows (endless : Fault) {fuel : Nat} (hfuel : cls.index < fuel)
    (good : contexts.Good base ctx) (hcls : ctx.heap.Holds Renaming.cls cls) :
    contexts.Shadows ctx (declareClass ev cls) (declareClassFreely ev' endless fuel cls) := by
  induction fuel generalizing cls ctx with
  | zero => exact absurd hfuel (Nat.not_lt_zero _)
  | succ fuel ih =>
    refine declareClassBy_shadows hev good hcls fun other older => ⟨_, rfl, fun good hother => ?_⟩
    exact ih (Nat.lt_of_lt_of_le older (Nat.lt_succ_iff.mp hfuel)) good hother

end Class

/-! ## Modules -/

section Modules

variable (hev : ev.Shadows base ev') (good : contexts.Good base ctx)
include hev good

theorem declareWith?_shadows {a : Value} (ha : ctx.heap.Holds Value.rename a) :
    contexts.Shadows ctx (declareWith? ev a) (declareWith? ev' a) := by
  unfold declareWith?
  refine .read (a := ctx) rfl ?_
  dsimp only
  cases hentry : ctx.heap.interpreted? a with
  | some entry =>
    obtain ⟨-, hfunction⟩ := good.interpreted? ha hentry
    exact .answer good (declareFunction_settled hev.mirrors ha hfunction entry.2.name)
      (declareFunction_shadows hev good ha entry.2.name entry.2) _
  | none =>
    cases a with
    | classObject cls =>
      have hcls : ctx.heap.Holds Renaming.cls cls := fun E fixes =>
        Value.classObject.inj (ha E fixes)
      refine .ite (fun _ => ?_) fun _ => .pure good _
      exact .answer good (declareClass_settled hev.mirrors hcls) (declareClass_shadows hev good hcls) _
    | _ => exact .pure good _

theorem definitionOf_shadows (name : String) {v : Variable} (hv : ctx.heap.Holds Variable.rename v) :
    contexts.Shadows ctx (Machine.definitionOf ev name v) (Machine.definitionOf ev' name v) := by
  have ha : ctx.heap.Holds Value.rename v.joined := fun E fixes => by
    rw [Variable.rename_joined, hv E fixes]
  have settled : contexts.Mirrors ctx (declareWith? ev v.joined) fun _ => id :=
    .of_eq (fun E _ => declareWith?_mirrors (hev.mirrors E) v.joined) fun E fixes => by rw [ha E fixes]
  unfold Machine.definitionOf
  refine .ite
    (fun _ => .bind good settled (declareWith?_shadows hev good ha) fun declared t _ good' _ _ => ?_)
    fun _ => .bind good (e := fun _ => id) (fun _ _ => .pure rfl) (.pure good _)
      fun declared t _ good' _ _ => ?_
  -- what has been found out is looked at in the same way
  all_goals
    dsimp only
    cases declared.filter (·.name = name) with
    | some definition => exact .pure good' _
    | none => exact .of_heap good' rfl

theorem definitionsOf_shadows {names : NameMap Variable}
    (hnames : ctx.heap.Holds Renaming.locals names) :
    contexts.Shadows ctx (Machine.definitionsOf ev names) (Machine.definitionsOf ev' names) := by
  have known : ∀ entry ∈ names, ctx.heap.Holds (fun E => Prod.map id (Variable.rename E)) entry :=
    fun entry hentry E fixes => Prod.ext rfl (mapValues_eq_self.mp (hnames E fixes) entry hentry)
  refine .mapM (r := fun _ => id) _ good (fun E _ t entry => ?_)
    (fun entry hentry => known entry (List.mem_of_mem_filter hentry)) fun t entry good hentry => ?_
  · exact definitionOf_mirrors (hev.mirrors E) entry.1 entry.2
  · exact definitionOf_shadows hev good entry.1 fun E fixes => congrArg Prod.snd (hentry E fixes)

end Modules

end StubInference
