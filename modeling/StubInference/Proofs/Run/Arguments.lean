import StubInference.Attribute
import StubInference.Class.Plan
import StubInference.Proofs.Run.Confinement
import StubInference.Proofs.Run.Parameters

/-!
# Attributes and arguments within a confinement

What is read from confined objects is confined, and so is what a call binds to the parameters of a
function.

## Main definitions

* `Args.Confined` — the arguments of a call carry confined variables only

## Main results

* `Heap.Confined.attribute?`, `Heap.Confined.setAttribute` — attributes
* `Args.Confined.mapArgs`, `Signature.confined_fakeArgs` — parameters
* `Heap.Confined.typeCallClass?` — classes made of arguments
-/

namespace StubInference

variable {P : CodeSite → Code → Prop} {G : ScopeId → Prop} {heap : Heap} {name : String}
  {a : Value} {v w : Variable}

/-! ## Attributes -/

theorem Builtins.confined_lookup? (h : Builtins.lookup? name = some a) : a.Confined P := by
  have hmembers : NameMap.AllConfined P Builtins.members := by
    intro entry hentry
    simp only [Builtins.members, List.mem_append] at hentry
    rcases hentry with ((hentry | hentry) | hentry) | hentry
    · obtain ⟨_, -, rfl⟩ := List.mem_map.mp hentry
      exact .classObject _
    · obtain rfl := List.mem_singleton.mp hentry
      exact .function _
    · obtain ⟨_, -, rfl⟩ := List.mem_map.mp hentry
      exact .function _
    · simp only [List.mem_cons, List.not_mem_nil, or_false] at hentry
      rcases hentry with rfl | rfl | rfl | rfl
      · exact .noneObject
      all_goals exact .of_literal (.of_plain (by simp) (by simp))
  exact hmembers.get? h

/-- The builtin functions have no defaults and return plain values. -/
theorem Builtins.plain_functions : ∀ function ∈ Builtins.functions,
    function.signature.defaults = [] ∧ function.returns.Confined P := by
  simp [Builtins.functions, Builtins.objectInit, Builtins.typeNew, Builtins.buildClass,
    Builtins.plainFunctions, Builtins.overlay?, Builtins.declare, Signature.ofParams,
    Value.Confined.any, Value.Confined.noneObject, Value.Confined.frozen]

/-- The first heap holds no code at all. -/
theorem Builtins.confined_heap : Builtins.heap.Confined P G where
  classes := by
    intro id
    unfold Heap.classAt
    rw [Array.getD_eq_getD_getElem?]
    have members : ∀ name, NameMap.AllConfined P (Builtins.classMembers name) := by
      intro name
      unfold Builtins.classMembers
      split
      · exact fun entry he => (List.mem_singleton.mp he) ▸ .function _
      · exact fun entry he => (List.mem_singleton.mp he) ▸ .function _
      · exact .nil
    cases hc : Builtins.heap.classes[id.index]? with
    | none => exact ⟨.nil, fun _ h => (by cases h)⟩
    | some info =>
      have hmem := List.mem_toArray.mp (Array.mem_of_getElem? hc)
      obtain ⟨⟨name, bases⟩, -, rfl⟩ := List.mem_map.mp hmem
      exact ⟨members name, fun _ h => (by cases h)⟩
  functions := by
    intro id
    unfold Heap.functionAt
    rw [Array.getD_eq_getD_getElem?]
    cases hf : Builtins.heap.functions[id.index]? with
    | none => exact ⟨.nil, fun _ h => (by cases h), fun _ h => (by cases h; exact .any)⟩
    | some info =>
      have hmem := List.mem_toArray.mp (Array.mem_of_getElem? hf)
      obtain ⟨function, hfunction, rfl⟩ := List.mem_map.mp hmem
      obtain ⟨hdefaults, hreturns⟩ := Builtins.plain_functions (P := P) function hfunction
      refine ⟨?_, fun _ h => (by cases h), fun _ h => (by cases h; exact hreturns)⟩
      exact hdefaults ▸ NameMap.Confined.nil
  instances := fun _ => .nil
  frames := by simp [Builtins.heap, Heap.empty]
  scopes := fun _ => .nil

namespace Heap.Confined

variable {cls : ClassId}

theorem lookup? (h : heap.Confined P G) (ha : heap.lookup? cls name = some a) : a.Confined P := by
  obtain ⟨id, -, hid⟩ := List.exists_of_findSome?_eq_some ha
  exact (h.classes id).members.get? hid

theorem instanceAttribute? (h : heap.Confined P G) (ha : a.Confined P)
    (hv : heap.instanceAttribute? cls a name = some v) : v.Confined P := by
  unfold Heap.instanceAttribute? at hv
  split at hv
  case h_1 id hid =>
    obtain rfl := Option.some.inj hv
    split
    · exact .var (ha.bind id)
    · exact .var (.function id)
  case h_2 value hvalue =>
    obtain rfl := Option.some.inj hv
    exact .var (h.lookup? hvalue)
  case h_3 =>
    split at hv
    · obtain rfl := Option.some.inj hv
      exact .var (.classObject cls)
    · split at hv
      · obtain rfl := Option.some.inj hv
        exact .var .any
      · cases hv

theorem classAttribute? (h : heap.Confined P G) (hv : heap.classAttribute? cls name = some v) :
    v.Confined P := by
  unfold Heap.classAttribute? at hv
  split at hv
  case h_1 value hvalue =>
    obtain rfl := Option.some.inj hv
    exact .var (h.lookup? hvalue)
  case h_2 =>
    simp only at hv
    split at hv
    case h_1 var hvar =>
      obtain rfl := Option.some.inj hv
      obtain ⟨metaclass, -, hmeta⟩ := Option.bind_eq_some_iff.mp hvar
      exact h.instanceAttribute? (.classObject cls) hmeta
    case h_2 =>
      unfold Heap.implicitClassAttribute? at hv
      split at hv
      · obtain rfl := Option.some.inj hv
        exact .var (.frozen _)
      · split at hv
        · obtain rfl := Option.some.inj hv
          exact .var (.classObject _)
        · split at hv
          · obtain rfl := Option.some.inj hv
            exact .var .any
          · cases hv

mutual
theorem attribute? (h : heap.Confined P G) :
    ∀ {a : Value} {v : Variable}, a.Confined P → a.attribute? heap name = some v → v.Confined P
  | .null, _, _, hv => by simp [Value.attribute?] at hv
  | .union members, _, ha, hv => by
    rw [Value.attribute?] at hv
    split at hv
    · cases hv
    · obtain rfl := Option.some.inj hv
      exact .ofValues (attributeValues h ha.inner)
  | .instanceObject id, _, ha, hv => by
    rw [Value.attribute?] at hv
    split at hv
    case h_1 var hvar =>
      obtain rfl := Option.some.inj hv
      exact (h.instances id).get? hvar
    case h_2 => exact h.instanceAttribute? ha hv
  | .frozen _, _, ha, hv => h.instanceAttribute? ha (by rwa [Value.attribute?] at hv)
  | .literal _, _, ha, hv => h.instanceAttribute? ha (by rwa [Value.attribute?] at hv)
  | .classObject _, _, _, hv => h.classAttribute? (by rwa [Value.attribute?] at hv)
  | .any, _, _, hv | .function _, _, _, hv | .bound _ _, _, _, hv | .tuple _, _, _, hv
  | .list _, _, _, hv | .dict _, _, _, hv | .argTuple _, _, _, hv | .argDict _, _, _, hv => by
    rw [Value.attribute?] at hv
    obtain rfl := Option.some.inj hv
    exact .var .any

theorem attributeValues (h : heap.Confined P G) :
    ∀ {as : List Value}, (∀ a ∈ as, a.Confined P) →
      ∀ b ∈ Value.attributeValues heap name as, b.Confined P
  | [], _ => by simp [Value.attributeValues]
  | a :: as, has => by
    simp only [List.forall_mem_cons] at has
    intro b hb
    rw [Value.attributeValues, List.mem_append] at hb
    rcases hb with hb | hb
    · split at hb
      case h_1 var hvar => exact (attribute? h has.1 hvar).values b hb
      case h_2 => cases hb
    · exact attributeValues h has.2 b hb
end

theorem setAttributeOn (h : heap.Confined P G) (hv : v.Confined P) (a : Value) :
    (heap.setAttributeOn name v a).Confined P G := by
  cases a with
  | instanceObject id => exact h.modifyInstance id fun info hinfo => hinfo.upsert hv
  | classObject cls =>
    simp only [Heap.setAttributeOn]
    split
    · exact h.modifyClass cls fun info hinfo => ⟨hinfo.members.insert hv.joined, hinfo.keywords⟩
    · exact h
  | _ => exact h

theorem setAttribute (h : heap.Confined P G) (hv : v.Confined P) (object : Variable) :
    (heap.setAttribute object name v).Confined P G := by
  unfold Heap.setAttribute
  induction object.values generalizing heap with
  | nil => exact h
  | cons a rest ih => exact ih (h.setAttributeOn hv a)

end Heap.Confined

/-- Storing attributes leaves the tables of names alone. -/
theorem Heap.scopes_setAttribute (heap : Heap) (object : Variable) (name : String)
    (v : Variable) : (heap.setAttribute object name v).scopes = heap.scopes := by
  unfold Heap.setAttribute
  induction object.values generalizing heap with
  | nil => rfl
  | cons a rest ih =>
    rw [List.foldl_cons, ih]
    unfold Heap.setAttributeOn
    split
    · rfl
    · split <;> rfl
    · rfl

/-! ## Arguments -/

/-- The arguments of a call are confined, and it is made from a frame with known globals. -/
structure Args.Confined (P : CodeSite → Code → Prop) (G : ScopeId → Prop) (args : Args) : Prop where
  positional : ∀ v ∈ args.positional, v.Confined P
  keywords : NameMap.Confined P args.keywords
  frame : ∀ frame, args.frame = some frame → G frame.globals

namespace Args.Confined

variable {args : Args}

theorem empty : Args.empty.Confined P G :=
  ⟨by simp [Args.empty], .nil, fun _ h => (by cases h)⟩

/-- Arguments given by position, from one frame. -/
theorem ofPositional {caller : Surroundings} {vs : List Variable} (hvs : ∀ v ∈ vs, v.Confined P)
    (hcaller : G caller.globals) :
    ({ Args.empty with positional := vs, frame := some caller } : Args).Confined P G :=
  ⟨hvs, .nil, fun frame h => (by cases h; exact hcaller)⟩

theorem withReceiver (h : args.Confined P G) {receiver : Option Value}
    (hreceiver : ∀ a, receiver = some a → a.Confined P) :
    (args.withReceiver receiver).Confined P G := by
  cases receiver with
  | none => exact h
  | some a =>
    exact ⟨List.forall_mem_cons.mpr ⟨.var (hreceiver a rfl), h.positional⟩, h.keywords, h.frame⟩

end Args.Confined

theorem Variable.Confined.unpackPositional (hv : v.Confined P) {vs : List Variable}
    (hvs : StubInference.unpackPositional v = .ok (some vs)) : ∀ w ∈ vs, w.Confined P := by
  obtain ⟨a, ha, hvs⟩ := Except.bind_eq_ok.mp hvs
  have h := hv.atomic ha
  cases a with
  | argTuple elements | tuple elements | list elements =>
    cases hvs
    exact h.parts
  | literal l =>
    cases l with
    | tuple items =>
      cases hvs
      exact Confined.items h
    | _ => cases hvs
  | _ => cases hvs

theorem Variable.Confined.unpackKeywords (hv : v.Confined P) {names : NameMap Variable}
    (hn : StubInference.unpackKeywords v = .ok (some names)) : NameMap.Confined P names := by
  obtain ⟨a, ha, hn⟩ := Except.bind_eq_ok.mp hn
  have h := hv.atomic ha
  cases a with
  | argDict entries =>
    cases hn
    exact fun entry hentry => h.parts _ (List.mem_map.mpr ⟨entry, hentry, rfl⟩)
  | dict entries => exact .namedEntries (fun es hes => Value.Confined.of_dict (hes ▸ h)) hn
  | _ => cases hn

theorem Args.Confined.expandStar {args args' : Args} (h : args.Confined P G) (hv : v.Confined P)
    (heq : args.expandStar v = .ok args') : args'.Confined P G := by
  obtain ⟨elements, helements, heq⟩ := Except.bind_eq_ok.mp heq
  cases elements with
  | some elements =>
    cases heq
    exact ⟨hv.unpackPositional helements, h.keywords, h.frame⟩
  | none =>
    cases heq
    exact ⟨h.positional, h.keywords, h.frame⟩

theorem Args.Confined.expandStarStar {args args' : Args} {var : Option Variable}
    (h : args.Confined P G) (hvar : ∀ w, var = some w → w.Confined P)
    (heq : args.expandStarStar var = .ok args') : args'.Confined P G := by
  cases var with
  | none =>
    cases heq
    exact h
  | some w =>
    obtain ⟨entries, hentries, heq⟩ := Except.bind_eq_ok.mp heq
    cases entries with
    | some entries =>
      cases heq
      exact ⟨h.positional, (hvar w rfl).unpackKeywords hentries, h.frame⟩
    | none =>
      cases heq
      exact ⟨h.positional, h.keywords, h.frame⟩

namespace Operands

variable {operands : Operands} {args : Args} {vs : List Variable}

theorem confined_arguments (hframe : G operands.frame.globals) (hvs : ∀ w ∈ vs, w.Confined P)
    (h : operands.arguments vs = .ok args) : args.Confined P G := by
  unfold Operands.arguments at h
  simp only at h
  split at h
  · cases h
    refine ⟨fun w hw => hvs w (List.mem_of_mem_take hw), .ofEntries fun entry hentry => ?_,
      fun frame hf => (by cases hf; exact hframe)⟩
    exact hvs _ (List.mem_of_mem_drop (List.of_mem_zip hentry).2)
  · cases h

theorem confined_expanded {starStar : Option Variable} (hframe : G operands.frame.globals)
    (hv : v.Confined P) (hstar : ∀ w, starStar = some w → w.Confined P)
    (h : operands.expanded v starStar = .ok args) : args.Confined P G := by
  unfold Operands.expanded at h
  split at h
  · cases h
  · obtain ⟨first, hfirst, h⟩ := Except.bind_eq_ok.mp h
    have start : first.Confined P G :=
      Args.Confined.expandStar (.ofPositional (List.forall_mem_nil _) hframe) hv hfirst
    exact start.expandStarStar hstar h

end Operands

/-! ## Parameters -/

namespace Signature

variable {sig : Signature}

/-- Confined arguments bind confined variables. -/
theorem bindable_confined : Bindable (Variable.Confined P) where
  any := .var .any
  argTuple _ h := .var (.argTuple h)
  argDict _ h := .var (.argDict h)

theorem confined_mapArgs {args : Args} (hdefaults : NameMap.Confined P sig.defaults)
    (h : args.Confined P G) : NameMap.Confined P (sig.mapArgs args).args :=
  all_mapArgs bindable_confined hdefaults h.positional h.keywords

theorem confined_fakeArgs {receiver : Option Value}
    (h : ∀ a, receiver = some a → a.Confined P) :
    NameMap.Confined P (sig.fakeArgs receiver) :=
  all_fakeArgs bindable_confined fun a ha => .var (h a ha)

theorem confined_ofCode {code : Code} {defaults : List Variable} {kwDefaults : NameMap Variable}
    (hdefaults : ∀ v ∈ defaults, v.Confined P) (hkw : NameMap.Confined P kwDefaults) :
    NameMap.Confined P (ofCode code defaults kwDefaults).defaults := all_ofCode hdefaults hkw

end Signature

/-! ## Classes made of arguments -/

theorem confined_namespaceDict {members : NameMap Value} (h : NameMap.AllConfined P members) :
    (namespaceDict members).Confined P := by
  refine .dict fun es hes e he => ?_
  obtain rfl := Option.some.inj hes
  obtain ⟨entry, hentry, rfl⟩ := List.mem_map.mp he
  exact ⟨.var (.text entry.1), .var (h entry hentry)⟩

theorem Heap.confined_namespaceMembers? {members : NameMap Value} (hv : v.Confined P)
    (h : Heap.namespaceMembers? v = some members) : NameMap.AllConfined P members := by
  obtain ⟨a, ha, h⟩ := Option.bind_eq_some_iff.mp h
  have hentries := hv.atomic? ha
  cases a with
  | dict entries =>
    simp only at h
    split at h
    case h_1 names hnames =>
      obtain rfl := Option.some.inj h
      have named : NameMap.Confined P names :=
        .namedEntries (fun es hes => Value.Confined.of_dict (hes ▸ hentries)) hnames
      exact named.joined
    case h_2 => cases h
  | _ => cases h

theorem Heap.confined_typeCallClass? {args : Args} {info : ClassInfo} (h : args.Confined P G)
    (hinfo : heap.typeCallClass? args = some info) : info.Confined P := by
  unfold Heap.typeCallClass? at hinfo
  obtain ⟨⟨metaclassVar, nameVar, basesVar, namespaceVar⟩, hvars, hinfo⟩ :=
    Option.bind_eq_some_iff.mp hinfo
  obtain ⟨name, -, hinfo⟩ := Option.bind_eq_some_iff.mp hinfo
  obtain ⟨bases, -, hinfo⟩ := Option.bind_eq_some_iff.mp hinfo
  obtain ⟨members, hmembers, hinfo⟩ := Option.bind_eq_some_iff.mp hinfo
  have hnamespace : namespaceVar.Confined P := by
    have hargs := h.positional
    unfold Heap.typeOperands? at hvars
    split at hvars
    case h_1 heq =>
      cases hvars
      exact hargs _ (by simp [heq])
    case h_2 heq =>
      cases hvars
      exact hargs _ (by simp [heq])
    case h_3 => cases hvars
  obtain rfl := Option.some.inj hinfo
  refine ⟨Heap.confined_namespaceMembers? hnamespace hmembers, fun body hbody => ?_⟩
  cases hbody
  exact NameMap.AllConfined.nil

end StubInference
