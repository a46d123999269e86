import StubInference.Proofs.Frame.Reaching
import StubInference.Proofs.Run.Discovery

/-!
# The receiver of an analysis

The functions of a class are analysed in turn on one instance of it. What one of them stores on the
instance is found by those that come after it, and by no other. So it matters when the constructor
has its turn: a declaration gives it the first one if the class has a constructor of its own, and the
analysis of definitions leaves it where the body created it.

## Main definitions

* `Visit.StoresOn`, `Visit.ReadsOn` — instructions that store and read an attribute of an instance
* `Turn`, `Turns` — functions that ran on a receiver, one after the other
* `declaredFunctions` — the functions that the declaration of a class runs, in their order

## Main results

* `Turns.pairwise_finds` — later turns find what earlier ones stored
* `Machine.onInstance_of_analysis` — who has a turn on the instance, and what is found there
-/

namespace StubInference

open Step FrameStep

/-! ## Attributes of an instance -/

/-- What an instance holds under a name. -/
def Heap.attributeOf (heap : Heap) (inst : InstanceId) (name : String) : Option Variable :=
  (heap.instanceAt inst).members.get? name

namespace Heap

variable {heap heap' : Heap} {inst : InstanceId} {name : String} {v : Variable}

/-- What is stored under a name is held there. -/
theorem holding_upsert (names : NameMap Variable) (name : String) (v : Variable) :
    Holding v ((names.upsert name v (·.mergeWith v)).get? name) := by
  rw [NameMap.upsert, NameMap.get?_insert_self]
  cases names.get? name with
  | none => exact ⟨v, rfl, .refl v⟩
  | some u => exact ⟨u.mergeWith v, rfl, u.includes_mergeWith_right v⟩

theorem Grows.holding (h : heap.Grows heap') (known : inst.index < heap.instances.size)
    (held : Holding v (heap.attributeOf inst name)) : Holding v (heap'.attributeOf inst name) := by
  obtain ⟨u, hu, includes⟩ := held
  obtain ⟨w, hw, more⟩ := (h.instanceAt known).2 name u hu
  exact ⟨w, hw, more.trans includes⟩

theorem holding_setAttributeOn (known : inst.index < heap.instances.size) :
    Holding v ((heap.setAttributeOn name v (.instanceObject inst)).attributeOf inst name) := by
  rw [attributeOf, instanceAt, setAttributeOn, modifyInstance, getD_modify known, if_pos rfl]
  exact holding_upsert _ name v

/-- An instance holds what has been stored on it. -/
theorem holding_setAttribute (known : inst.index < heap.instances.size) {object : Variable}
    (h : .instanceObject inst ∈ object.values) :
    Holding v ((heap.setAttribute object name v).attributeOf inst name) := by
  unfold setAttribute
  generalize object.values = values at h
  induction values generalizing heap with
  | nil => cases h
  | cons a rest ih =>
    have grows : heap.Grows (heap.setAttributeOn name v a) := .single (.setAttributeOn name v a)
    have still := Nat.lt_of_lt_of_le known grows.sizeLE.instances
    rw [List.foldl_cons]
    rcases List.mem_cons.mp h with rfl | h
    · exact (Grows.setAttributeOn rest name v).holding still (holding_setAttributeOn known)
    · exact ih still h

end Heap

/-! ## Instructions that store and read -/

/-- An instruction that stored a variable under an attribute of an instance. -/
def Visit.StoresOn (inst : InstanceId) (name : String) (v : Variable) (visit : Visit) : Prop :=
  visit.instruction.opcode = .storeAttr name ∧ ∃ object rest,
    visit.before.frame.state.stack = object :: v :: rest ∧ .instanceObject inst ∈ object.values

/-- An instruction that read an attribute of an instance, and of nothing else. -/
def Visit.ReadsOn (inst : InstanceId) (name : String) (visit : Visit) : Prop :=
  (visit.instruction.opcode = .loadAttr name ∨ visit.instruction.opcode = .loadMethod name) ∧
    ∃ object rest, visit.before.frame.state.stack = object :: rest ∧
      object.values = [.instanceObject inst]

/-- An instruction that put the values of a variable on the stack and had nothing to report. -/
def Visit.Finds (v : Variable) (visit : Visit) : Prop :=
  Holding v visit.after.frame.state.stack.head? ∧
    visit.after.context.log = visit.before.context.log

section Instructions

variable {ev : Evaluator} {inst : InstanceId} {name : String} {v : Variable} {s t : Execution}

theorem FrameStep.perform_storeAttr {object : Variable} {rest : List Variable}
    (stack : s.frame.state.stack = object :: v :: rest)
    (performed : perform ev (.storeAttr name) s = (.ok (), t)) :
    t.context.heap = s.context.heap.setAttribute object name v := by
  obtain ⟨_, u, hpop, h⟩ := Step.bind_eq_ok.mp performed
  obtain ⟨_, w, hpop', h⟩ := Step.bind_eq_ok.mp h
  obtain ⟨below, hstack, rfl⟩ := pop_eq_ok.mp hpop
  obtain ⟨_, hstack', rfl⟩ := pop_eq_ok.mp hpop'
  rw [stack] at hstack
  cases hstack
  cases hstack'
  cases h
  rfl

/-- Reading an attribute that the instance holds gives what it holds. -/
theorem FrameStep.loadAttribute_instance {object w : Variable}
    (values : object.values = [.instanceObject inst])
    (held : s.context.heap.attributeOf inst name = some w) :
    loadAttribute object name s = (.ok (.ofValues w.values), s) := by
  have found : (Value.instanceObject inst).attribute? s.context.heap name = some w := by
    rw [Heap.attributeOf] at held
    simp only [Value.attribute?, held]
  exact loadAttribute_of_one values found

/-- An attribute that the instance holds is what an instruction that reads it finds. -/
theorem FrameStep.perform_read {op : Opcode} {object : Variable} {rest : List Variable}
    (reads : op = .loadAttr name ∨ op = .loadMethod name)
    (stack : s.frame.state.stack = object :: rest) (values : object.values = [.instanceObject inst])
    (held : Holding v (s.context.heap.attributeOf inst name))
    (performed : perform ev op s = (.ok (), t)) :
    Holding v t.frame.state.stack.head? ∧ t.context.log = s.context.log := by
  obtain ⟨w, hw, includes⟩ := held
  have holds : Holding v (some (Variable.ofValues w.values)) :=
    ⟨_, rfl, w.includes_ofValues.trans includes⟩
  have loaded {a x : Variable} {u u' : Execution} (hpop : pop op s = (.ok a, u))
      (hload : loadAttribute a name u = (.ok x, u')) :
      x = .ofValues w.values ∧ u' = u ∧ u.context = s.context := by
    obtain ⟨below, hstack, rfl⟩ := pop_eq_ok.mp hpop
    rw [stack] at hstack
    cases hstack
    have load := loadAttribute_instance (s := s.withState { s.frame.state with stack := rest })
      values hw
    rw [load] at hload
    cases hload
    exact ⟨rfl, rfl, rfl⟩
  rcases reads with rfl | rfl
  case inl =>
    obtain ⟨a, u, hpop, read⟩ := Step.bind_eq_ok.mp performed
    obtain ⟨x, _, hload, pushed⟩ := Step.bind_eq_ok.mp read
    obtain ⟨rfl, rfl, same⟩ := loaded hpop hload
    cases pushed
    exact ⟨holds, congrArg Context.log same⟩
  case inr =>
    -- a method goes on top of an empty slot
    obtain ⟨a, u, hpop, read⟩ := Step.bind_eq_ok.mp performed
    obtain ⟨x, _, hload, pushed⟩ := Step.bind_eq_ok.mp read
    obtain ⟨rfl, rfl, same⟩ := loaded hpop hload
    obtain ⟨_, _, hnull, top⟩ := Step.bind_eq_ok.mp pushed
    cases hnull
    cases top
    exact ⟨holds, congrArg Context.log same⟩

end Instructions

/-! ## Runs of a body -/

section Courses

variable {E : Renaming} {ev : Evaluator} {blocks : List Block} {point : Point} {s t : Execution}
  {visits : List Visit}

/-- An execution grows from one visit to the next. -/
theorem Course.grows (hev : ev.Mirrors E) (course : Course ev blocks point s visits t) :
    s.Grows t ∧ ∀ visit ∈ visits, s.Grows visit.before ∧ visit.after.Grows t := by
  have performs {op : Opcode} {s u : Execution} (h : perform ev op s = (.ok (), u)) :
      s.Grows u := by
    have grows := (perform_mirrors (s := s) hev op).grows
    rwa [h] at grows
  have line (s : Execution) (n : Nat) : s.Grows (s.atLine n) :=
    ⟨⟨.refl _, rfl, rfl⟩, rfl, rfl, fun _ h => .inl h⟩
  -- what grows before the visits counts as well
  have before {s u t : Execution} {visits : List Visit} (h : s.Grows u)
      (later : u.Grows t ∧ ∀ visit ∈ visits, u.Grows visit.before ∧ visit.after.Grows t) :
      s.Grows t ∧ ∀ visit ∈ visits, s.Grows visit.before ∧ visit.after.Grows t :=
    ⟨h.trans later.1, fun visit hvisit => (later.2 visit hvisit).imp_left h.trans⟩
  induction course with
  | done => exact ⟨.refl _, List.forall_mem_nil _⟩
  | skip _ _ _ ih | last _ _ ih => exact ih
  | @enter index s _ _ _ entry _ _ _ ih =>
    have entered : s.Grows (s.atBlock index entry.2) := .frame s rfl rfl rfl
    exact before entered ih
  | @fall index s _ u _ _ jumped _ ih =>
    have grows := (mirrors_jump (E := E) (s := s) (index + 1)).grows
    rw [jumped] at grows
    exact before grows ih
  | @next _ s _ u _ instruction _ performed _ _ ih | @stop _ s _ u _ instruction _ performed _ _ ih =>
    have here := line s instruction.line
    have later := before (here.trans (performs performed)) ih
    exact ⟨later.1, List.forall_mem_cons.mpr ⟨⟨here, ih.1⟩, later.2⟩⟩

end Courses

/-! ## Turns -/

/-- A function that has run, the frame that was recorded for it and the visits of its body. -/
structure Turn where
  function : FunctionId
  frame : FrameId
  visits : List Visit

/-- A function ran on a receiver with every other parameter unknown. Its body ran under the evaluator
with the function on the call stack, and the frame was recorded as it finished. -/
structure Turn.Took (ev : Evaluator) (receiver : Value) (ctx : Context) (turn : Turn)
    (ctx' : Context) : Prop where
  ran : ∃ function start done before after,
    ctx.heap.functionAt turn.function = .interpreted function ∧
      Frame.forCall turn.function function (function.signature.fakeArgs (some receiver)) ctx =
        (.ok start, before) ∧
      start.VisitedAs ev { before with callStack := turn.function :: before.callStack } turn.visits
        done after ∧
      Analysis.withHeap (·.addFrame done) { after with callStack := after.callStack.tail } =
        (.ok turn.frame, ctx')

/-- Functions ran on a receiver one after the other. The state may grow in between. -/
inductive Turns (ev : Evaluator) (receiver : Value) : Context → List Turn → Context → Prop
  | nil {ctx ctx' : Context} (grows : ctx.Grows ctx') : Turns ev receiver ctx [] ctx'
  | cons {ctx before after ctx' : Context} {turn : Turn} {turns : List Turn}
      (grows : ctx.Grows before) (took : turn.Took ev receiver before after)
      (more : Turns ev receiver after turns ctx') : Turns ev receiver ctx (turn :: turns) ctx'

section Turns

variable {E : Renaming} {ev : Evaluator} {receiver : Value} {ctx ctx' ctx'' : Context} {turn : Turn}
  {turns turns' : List Turn} {inst : InstanceId} {name : String} {v : Variable}

/-- The heap grows up to each visit of a turn, and from there on. -/
theorem Turn.Took.grows (hev : ev.Mirrors E) (took : turn.Took ev receiver ctx ctx') :
    ctx.heap.Grows ctx'.heap ∧ ∀ visit ∈ turn.visits,
      ctx.heap.Grows visit.before.context.heap ∧ visit.after.context.heap.Grows ctx'.heap := by
  obtain ⟨function, start, done, before, after, -, made, ⟨last, course, rfl⟩, recorded⟩ := took.ran
  obtain ⟨grows, visits⟩ := course.grows hev
  obtain ⟨id, frame, _⟩ := turn
  cases made
  cases recorded
  have begins : ctx.heap.Grows (ctx.heap.addScope []).2 := .single (.addScope [])
  have sound : Frame.Sound after.heap { last with finished := true } :=
    ⟨rfl, fun id hid => (grows.functions id hid).resolve_left (List.not_mem_nil)⟩
  have ends : after.heap.Grows (after.heap.addFrame { last with finished := true }).2 :=
    .single (.addFrame _ sound)
  exact ⟨(begins.trans grows.context.heap).trans ends, fun visit hvisit =>
    ⟨begins.trans (visits visit hvisit).1.context.heap,
      (visits visit hvisit).2.context.heap.trans ends⟩⟩

theorem Turns.grows (hev : ev.Mirrors E) (h : Turns ev receiver ctx turns ctx') :
    ctx.heap.Grows ctx'.heap := by
  induction h with
  | nil grows => exact grows.heap
  | cons grows took _ ih => exact (grows.heap.trans (took.grows hev).1).trans ih

theorem Turns.append (h : Turns ev receiver ctx turns ctx')
    (h' : Turns ev receiver ctx' turns' ctx'') : Turns ev receiver ctx (turns ++ turns') ctx'' := by
  induction h with
  | nil grows =>
    cases h' with
    | nil grows' => exact .nil (grows.trans grows')
    | cons grows' took more => exact .cons (grows.trans grows') took more
  | cons grows took _ ih => exact .cons grows took (ih h')

/-- What a turn stored on the receiver is held when it is over. -/
theorem Turn.Took.holding (hev : ev.Mirrors E)
    (took : turn.Took ev (.instanceObject inst) ctx ctx')
    (known : inst.index < ctx.heap.instances.size) {store : Visit} (visited : store ∈ turn.visits)
    (stores : store.StoresOn inst name v) : Holding v (ctx'.heap.attributeOf inst name) := by
  obtain ⟨-, grows⟩ := took.grows hev
  obtain ⟨before, after⟩ := grows store visited
  obtain ⟨function, start, done, _, _, -, -, ⟨last, course, -⟩, -⟩ := took.ran
  obtain ⟨opcode, object, rest, stack, receives⟩ := stores
  have performed := course.performed visited
  rw [opcode] at performed
  have there := Nat.lt_of_lt_of_le known before.sizeLE.instances
  have stored : store.before.context.heap.Grows store.after.context.heap := by
    rw [perform_storeAttr stack performed]
    exact .setAttribute object name v
  refine after.holding (Nat.lt_of_lt_of_le there stored.sizeLE.instances) ?_
  rw [perform_storeAttr stack performed]
  exact Heap.holding_setAttribute there receives

/-- What a turn reads of the receiver is what it held before. -/
theorem Turn.Took.finds (hev : ev.Mirrors E)
    (took : turn.Took ev (.instanceObject inst) ctx ctx')
    (known : inst.index < ctx.heap.instances.size) (held : Holding v (ctx.heap.attributeOf inst name))
    {load : Visit} (visited : load ∈ turn.visits) (reads : load.ReadsOn inst name) :
    load.Finds v := by
  obtain ⟨before, -⟩ := (took.grows hev).2 load visited
  obtain ⟨function, start, done, _, _, -, -, ⟨last, course, -⟩, -⟩ := took.ran
  obtain ⟨opcode, object, rest, stack, values⟩ := reads
  exact perform_read opcode stack values (before.holding known held) (course.performed visited)

/-- A turn finds on the instance whatever an earlier one stored there. -/
def Turn.FindsAllOf (inst : InstanceId) (earlier later : Turn) : Prop :=
  ∀ store ∈ earlier.visits, ∀ name v, store.StoresOn inst name v →
    ∀ load ∈ later.visits, load.ReadsOn inst name → load.Finds v

/-- What the receiver holds before is found in every turn. -/
theorem Turns.finds (hev : ev.Mirrors E) (h : Turns ev (.instanceObject inst) ctx turns ctx')
    (known : inst.index < ctx.heap.instances.size) (held : Holding v (ctx.heap.attributeOf inst name)) :
    ∀ turn ∈ turns, ∀ load ∈ turn.visits, load.ReadsOn inst name → load.Finds v := by
  induction h with
  | nil => exact List.forall_mem_nil _
  | cons grows took _ ih =>
    have before := Nat.lt_of_lt_of_le known grows.heap.sizeLE.instances
    have here := grows.heap.holding known held
    have growth := (took.grows hev).1
    refine List.forall_mem_cons.mpr ⟨fun load visited reads => ?_, ?_⟩
    · exact took.finds hev before here visited reads
    · exact ih (Nat.lt_of_lt_of_le before growth.sizeLE.instances) (growth.holding before here)

/-- Each turn finds what those before it stored. -/
theorem Turns.pairwise_finds (hev : ev.Mirrors E)
    (h : Turns ev (.instanceObject inst) ctx turns ctx')
    (known : inst.index < ctx.heap.instances.size) :
    turns.Pairwise (Turn.FindsAllOf inst) := by
  induction h with
  | nil => exact .nil
  | cons grows took more ih =>
    have before := Nat.lt_of_lt_of_le known grows.heap.sizeLE.instances
    have after := Nat.lt_of_lt_of_le before (took.grows hev).1.sizeLE.instances
    refine List.pairwise_cons.mpr ⟨fun later hlater store hstore name v stores => ?_, ih after⟩
    exact more.finds hev after (took.holding hev before hstore stores) later hlater

end Turns

/-! ## Who has a turn -/

section Analyses

variable {depth : Nat} {receiver : Value} {ctx ctx' : Context} {id : FunctionId}
  {found : List FrameId}

/-- An interpreted function that is analysed on a receiver has a turn. -/
theorem Turn.exists_of_analyseFunction {function : InterpretedFunction}
    (known : ctx.heap.functionAt id = .interpreted function)
    (h : (Evaluator.atDepth (depth + 1)).analyseFunction (.bound receiver id) ctx =
      (.ok found, ctx')) :
    ∃ turn : Turn, turn.Took (.atDepth depth) receiver ctx ctx' ∧ turn.function = id ∧
      found = [turn.frame] := by
  obtain ⟨frame, rfl, hbody⟩ := Evaluator.analyse_eq_ok (some receiver) known h
  change Evaluator.runIn (.atDepth depth) id function _ ctx = _ at hbody
  obtain ⟨start, before, made, hbody⟩ := Step.bind_eq_ok.mp hbody
  obtain ⟨done, _, ran, recorded⟩ := Step.bind_eq_ok.mp hbody
  obtain ⟨after, run, rfl⟩ := Analysis.running_eq_ok ran
  obtain ⟨visits, visited⟩ := Frame.exists_visits run
  exact ⟨⟨id, frame, visits⟩, ⟨function, start, done, before, after, known, made, visited, recorded⟩,
    rfl, rfl⟩

/-- Interpreted functions that are analysed one after the other have their turns in this order. -/
theorem Turns.exists_of_mapM {functions : List FunctionId} {results : List (List FrameId)}
    (interpreted : ∀ id ∈ functions, ctx.heap.isInterpreted id = true)
    (h : functions.mapM
      (fun id => (Evaluator.atDepth (depth + 1)).analyseFunction (.bound receiver id)) ctx =
        (.ok results, ctx')) :
    ∃ turns, Turns (.atDepth depth) receiver ctx turns ctx' ∧
      turns.map Turn.function = functions ∧ turns.map Turn.frame = results.flatten := by
  induction functions generalizing ctx results with
  | nil =>
    cases h
    exact ⟨[], .nil (.refl _), rfl, rfl⟩
  | cons id rest ih =>
    rw [List.mapM_cons] at h
    obtain ⟨result, t, hstep, h⟩ := Step.bind_eq_ok.mp h
    obtain ⟨others, u, hrest, hpure⟩ := Step.bind_eq_ok.mp h
    cases hpure
    obtain ⟨function, known⟩ := exists_function (interpreted id List.mem_cons_self)
    obtain ⟨turn, took, rfl, rfl⟩ := Turn.exists_of_analyseFunction known hstep
    have grows := (took.grows (Evaluator.atDepth_mirrors (.past .empty) depth)).1
    obtain ⟨turns, later, rfl, frames⟩ := ih
      (fun id hid => grows.isInterpreted (interpreted id (List.mem_cons_of_mem _ hid))) hrest
    exact ⟨turn :: turns, .cons (.refl _) took later, rfl, by simp [frames]⟩

end Analyses

/-! ### Declarations -/

namespace Heap

/-- The function that the declaration of a member runs. A constructor that has run is not run
again. -/
def declaredMember? (heap : Heap) (constructed : Bool) (member : String × Value) :
    Option FunctionId :=
  if member.1 ∈ implicitMembers ∨ member.1 = "__init__" ∧ constructed = true then none
  else (heap.interpreted? member.2).map Prod.fst

/-- The interpreted function that is the constructor of a class among its own members. -/
def ownConstructor? (heap : Heap) (info : ClassInfo) : Option FunctionId :=
  ((info.members.get? "__init__").bind heap.interpreted?).map Prod.fst

/-- The functions that the declaration of a class runs, in their order: its own constructor, then
the functions among its members. -/
def declaredFunctions (heap : Heap) (info : ClassInfo) : List FunctionId :=
  (heap.ownConstructor? info).toList ++
    info.members.filterMap (heap.declaredMember? (heap.ownConstructor? info).isSome)

theorem interpreted?_eq_some {heap : Heap} {a : Value} {id : FunctionId}
    {function : InterpretedFunction} (h : heap.interpreted? a = some (id, function)) :
    heap.functionAt id = .interpreted function := by
  cases a with
  | function other =>
    rw [interpreted?, Option.map_eq_some_iff] at h
    obtain ⟨_, h, ⟨⟩⟩ := h
    cases known : heap.functionAt id with
    | interpreted function =>
      rw [known] at h
      cases h
      rfl
    | declared function =>
      rw [known] at h
      cases h
  | _ => cases h

end Heap

section Declarations

variable {E : Renaming} {depth : Nat} {receiver : Value} {ctx ctx' t : Context} {heap : Heap}
  {info : ClassInfo} {init : Option Stub.Function}

theorem Turns.after_growth {ev : Evaluator} {turns : List Turn} (grows : ctx.Grows t)
    (h : Turns ev receiver t turns ctx') : Turns ev receiver ctx turns ctx' :=
  (Turns.nil grows).append h

/-- A function that is declared on a receiver has a turn. -/
theorem Turns.exists_of_declareFunction {id : FunctionId} {function : InterpretedFunction}
    {name : String} {declared : Stub.Function} (old : heap.Grows ctx.heap)
    (known : heap.functionAt id = .interpreted function)
    (h : declareFunction (.atDepth (depth + 1)) name (.bind receiver id) function ctx =
      (.ok declared, ctx')) :
    ∃ turns, Turns (.atDepth depth) receiver ctx turns ctx' ∧ turns.map Turn.function = [id] := by
  unfold declareFunction at h
  obtain ⟨frames, t, hrun, h⟩ := Step.bind_eq_ok.mp h
  have still : ctx.heap.functionAt id = .interpreted function := by
    rw [old.functionAt (Heap.lt_of_functionAt known), known]
  obtain ⟨turn, took, hturn, -⟩ := Turn.exists_of_analyseFunction still hrun
  cases h
  exact ⟨[turn], .cons (.refl _) took (.nil (.refl _)), by simp [hturn]⟩

/-- The function of a member that is declared has a turn, and no other one does. -/
theorem Turns.exists_of_declareMember {body body' : DeclaredBody} {member : String × Value}
    {nested : ClassId → Option (Analysis Stub.Class)}
    (hnested : ∀ cls m, nested cls = some m → Step.Extends E.contexts ctx m)
    (old : heap.Grows ctx.heap)
    (h : declareMember (.atDepth (depth + 1)) heap info receiver init nested body member ctx =
      (.ok body', ctx')) :
    ∃ turns, Turns (.atDepth depth) receiver ctx turns ctx' ∧
      turns.map Turn.function = (heap.declaredMember? init.isSome member).toList := by
  have grows := declareMember_extends (Evaluator.atDepth_mirrors E (depth + 1)) heap info receiver
    init hnested body member
  unfold Step.Extends at grows
  rw [h] at grows
  obtain ⟨name, a⟩ := member
  unfold declareMember at h
  dsimp only at h
  by_cases implicit : name ∈ implicitMembers
  · rw [if_pos implicit] at h
    cases h
    exact ⟨[], .nil (.refl _), by simp [Heap.declaredMember?, implicit]⟩
  rw [if_neg implicit] at h
  cases interpreted : heap.interpreted? a with
  | some entry =>
    obtain ⟨id, function⟩ := entry
    rw [interpreted] at h
    obtain ⟨method, t, hmethod, h⟩ := Step.bind_eq_ok.mp h
    cases h
    have known := Heap.interpreted?_eq_some interpreted
    -- the constructor has had its turn, so its declaration is at hand and nothing is run
    by_cases constructed : name = "__init__" ∧ init.isSome = true
    · obtain ⟨rfl, some⟩ := constructed
      obtain ⟨constructor, rfl⟩ := Option.isSome_iff_exists.mp some
      cases hmethod
      exact ⟨[], .nil (.refl _), by simp [Heap.declaredMember?]⟩
    · have fresh : (if name = "__init__" then init else none) = none := by
        by_cases named : name = "__init__"
        · rw [if_pos named]
          exact Option.not_isSome_iff_eq_none.mp fun some => constructed ⟨named, some⟩
        · exact if_neg named
      rw [fresh] at hmethod
      obtain ⟨turns, took, functions⟩ := Turns.exists_of_declareFunction old known hmethod
      exact ⟨turns, took, by simp [Heap.declaredMember?, implicit, constructed, interpreted, functions]⟩
  | none =>
    have silent : heap.declaredMember? init.isSome (name, a) = none := by
      simp [Heap.declaredMember?, interpreted]
    exact ⟨[], .nil grows, by rw [silent]; rfl⟩

/-- The functions of the members that are declared have their turns in order. -/
theorem Turns.exists_of_declareMembers {members : NameMap Value} {body body' : DeclaredBody}
    {nested : ClassId → Option (Analysis Stub.Class)}
    (hnested : ∀ cls m, nested cls = some m → ∀ ctx, Step.Extends E.contexts ctx m)
    (old : heap.Grows ctx.heap)
    (h : members.foldlM
      (declareMember (.atDepth (depth + 1)) heap info receiver init nested) body ctx =
        (.ok body', ctx')) :
    ∃ turns, Turns (.atDepth depth) receiver ctx turns ctx' ∧
      turns.map Turn.function = members.filterMap (heap.declaredMember? init.isSome) := by
  induction members generalizing ctx body with
  | nil =>
    cases h
    exact ⟨[], .nil (.refl _), rfl⟩
  | cons member rest ih =>
    rw [List.foldlM_cons] at h
    obtain ⟨next, t, hmember, hrest⟩ := Step.bind_eq_ok.mp h
    obtain ⟨first, took, functions⟩ :=
      Turns.exists_of_declareMember (fun cls m hm => hnested cls m hm ctx) old hmember
    have grows := took.grows (Evaluator.atDepth_mirrors E depth)
    obtain ⟨others, more, functions'⟩ := ih (old.trans grows) hrest
    refine ⟨first ++ others, took.append more, ?_⟩
    rw [List.map_append, functions, functions', List.filterMap_cons]
    cases heap.declaredMember? init.isSome member <;> rfl

/-- The constructor that a class has of its own has a turn. -/
theorem Turns.exists_of_declareConstructor (old : heap.Grows ctx.heap)
    (h : declareConstructor (.atDepth (depth + 1)) heap info receiver ctx = (.ok init, ctx')) :
    ∃ turns, Turns (.atDepth depth) receiver ctx turns ctx' ∧
      turns.map Turn.function = (heap.ownConstructor? info).toList ∧
      (heap.ownConstructor? info).isSome = init.isSome := by
  unfold declareConstructor at h
  unfold Heap.ownConstructor?
  cases own : (info.members.get? "__init__").bind heap.interpreted? with
  | none =>
    rw [own] at h
    cases h
    exact ⟨[], .nil (.refl _), rfl, rfl⟩
  | some entry =>
    obtain ⟨id, function⟩ := entry
    rw [own] at h
    dsimp only at h
    rw [map_eq_pure_bind] at h
    obtain ⟨declared, t, hdeclared, hpure⟩ := Step.bind_eq_ok.mp h
    cases hpure
    obtain ⟨a, -, hinterpreted⟩ := Option.bind_eq_some_iff.mp own
    obtain ⟨turns, took, functions⟩ := Turns.exists_of_declareFunction old
      (Heap.interpreted?_eq_some hinterpreted) hdeclared
    exact ⟨turns, took, functions, rfl⟩

/-- The declaration of a class gives turns on its instance to the functions that it declares. -/
theorem Turns.exists_of_declareClass {cls : ClassId} {declared : Stub.Class}
    (h : declareClass (.atDepth (depth + 1)) cls ctx = (.ok declared, ctx')) :
    ∃ turns, Turns (.atDepth depth) (ctx.heap.instantiate cls).1
        { ctx with heap := (ctx.heap.instantiate cls).2 } turns ctx' ∧
      turns.map Turn.function = ctx.heap.declaredFunctions (ctx.heap.classAt cls) := by
  have hev := Evaluator.atDepth_mirrors (.past .empty) (depth + 1)
  rw [declareClass] at h
  obtain ⟨_, _, hold, h⟩ := Step.bind_eq_ok.mp h
  cases hold
  obtain ⟨_, _, hmade, h⟩ := Step.bind_eq_ok.mp h
  cases hmade
  obtain ⟨init, t, hinit, h⟩ := Step.bind_eq_ok.mp h
  obtain ⟨body, u, hbody, h⟩ := Step.bind_eq_ok.mp h
  cases h
  have made : ctx.heap.Grows (ctx.heap.instantiate cls).2 := .single (.instantiate cls)
  obtain ⟨first, took, functions, constructed⟩ := Turns.exists_of_declareConstructor made hinit
  have grows := took.grows (Evaluator.atDepth_mirrors (.past .empty) depth)
  obtain ⟨others, more, functions'⟩ := Turns.exists_of_declareMembers (E := .past .empty)
    (fun other m hm s => by
      split_ifs at hm
      cases hm
      exact declareClass_extends hev other) (made.trans grows) hbody
  refine ⟨first ++ others, took.append more, ?_⟩
  rw [List.map_append, functions, functions', Heap.declaredFunctions, constructed]

/-- The functions that a class lists have turns on its instance in an analysis of definitions. -/
theorem Turns.exists_of_analyseClass (grown : Builtins.heap.Grows ctx.heap) {cls : ClassId}
    (known : cls.index < ctx.heap.classes.size) {found : List FrameId}
    (h : Machine.analyseClass (.atDepth (depth + 1)) cls ctx = (.ok found, ctx')) :
    ∃ turns, Turns (.atDepth depth) (ctx.heap.instantiate cls).1
        { ctx with heap := (ctx.heap.instantiate cls).2 } turns ctx' ∧
      turns.map Turn.function = (ctx.heap.classAt cls).functions ∧ turns.map Turn.frame = found := by
  have made : ctx.heap.Grows (ctx.heap.instantiate cls).2 := .single (.instantiate cls)
  unfold Machine.analyseClass at h
  obtain ⟨_, _, hmade, h⟩ := Step.bind_eq_ok.mp h
  cases hmade
  obtain ⟨_, _, hids, h⟩ := Step.bind_eq_ok.mp h
  cases hids
  obtain ⟨results, u, hrun, hpure⟩ := Step.bind_eq_ok.mp h
  cases hpure
  rw [← Heap.functions_classAt made known]
  exact Turns.exists_of_mapM (fun id hid => (grown.trans made).sound.classes cls id hid) hrun

end Declarations

/-! ## What is found on the instance -/

/-- Functions ran in turn on one new instance of a class, and each found whatever those before it
stored there. -/
structure Turns.OnInstance (ev : Evaluator) (cls : ClassId) (ctx : Context) (inst : InstanceId)
    (turns : List Turn) (ctx' : Context) : Prop where
  fresh : ctx.heap.instances.size ≤ inst.index
  ofClass : (ctx'.heap.instanceAt inst).cls = cls
  taken : Turns ev (.instanceObject inst) ctx turns ctx'
  finds : turns.Pairwise (Turn.FindsAllOf inst)

theorem Turns.onInstance {depth : Nat} {ctx ctx' : Context} {cls : ClassId} {turns : List Turn}
    (built : ctx.heap.isBuilt cls = true)
    (h : Turns (.atDepth depth) (ctx.heap.instantiate cls).1
      { ctx with heap := (ctx.heap.instantiate cls).2 } turns ctx') :
    Turns.OnInstance (.atDepth depth) cls ctx ⟨ctx.heap.instances.size⟩ turns ctx' := by
  have hev := Evaluator.atDepth_mirrors (.past .empty) depth
  have made : ctx.heap.instantiate cls = (.instanceObject ⟨ctx.heap.instances.size⟩,
      (ctx.heap.addInstance ⟨cls, []⟩).2) := if_pos built
  have grows : ctx.heap.Grows (ctx.heap.addInstance ⟨cls, []⟩).2 := by
    have change : ctx.heap.Grows (ctx.heap.instantiate cls).2 := .single (.instantiate cls)
    rwa [made] at change
  rw [made] at h
  replace h : Turns (.atDepth depth) (.instanceObject ⟨ctx.heap.instances.size⟩)
    { ctx with heap := (ctx.heap.addInstance ⟨cls, []⟩).2 } turns ctx' := h
  have known : (⟨ctx.heap.instances.size⟩ : InstanceId).index <
      (ctx.heap.addInstance ⟨cls, []⟩).2.instances.size := by
    simp [Heap.addInstance]
  have begins : ctx.Grows { ctx with heap := (ctx.heap.addInstance ⟨cls, []⟩).2 } :=
    ⟨grows, rfl, rfl⟩
  refine ⟨Nat.le_refl _, ?_, h.after_growth begins, h.pairwise_finds hev known⟩
  -- the instance keeps its class whatever the turns do
  have later : (ctx.heap.addInstance ⟨cls, []⟩).2.Grows ctx'.heap := h.grows hev
  rw [(later.instanceAt known).1]
  simp [Heap.addInstance, Heap.instanceAt]

namespace Machine

/-- An analysis runs functions of a class in turn on one new instance, and each finds whatever those
before it stored there, with nothing to report. The analysis of definitions runs the functions that
the class lists, a constructor where it stands among them. The declaration of the class runs its own
constructor first, and no inherited one. -/
theorem onInstance_of_analysis {depth : Nat} {ctx : Context} (grown : Builtins.heap.Grows ctx.heap)
    {cls : ClassId} (built : ctx.heap.isBuilt cls = true) :
    (∀ frames ctx', analyseClass (.atDepth (depth + 1)) cls ctx = (.ok frames, ctx') →
      ∃ inst turns, Turns.OnInstance (.atDepth depth) cls ctx inst turns ctx' ∧
        turns.map Turn.function = (ctx.heap.classAt cls).functions ∧
        turns.map Turn.frame = frames) ∧
    ∀ declared ctx', declareClass (.atDepth (depth + 1)) cls ctx = (.ok declared, ctx') →
      ∃ inst turns, Turns.OnInstance (.atDepth depth) cls ctx inst turns ctx' ∧
        turns.map Turn.function = ctx.heap.declaredFunctions (ctx.heap.classAt cls) := by
  have known : cls.index < ctx.heap.classes.size := Heap.lt_of_isBuilt built
  constructor
  · intro frames ctx' h
    obtain ⟨turns, taken, functions, recorded⟩ := Turns.exists_of_analyseClass grown known h
    exact ⟨_, turns, taken.onInstance built, functions, recorded⟩
  · intro declared ctx' h
    obtain ⟨turns, taken, functions⟩ := Turns.exists_of_declareClass h
    exact ⟨_, turns, taken.onInstance built, functions⟩

/-- The code of a module with a class whose constructor is defined behind a method that reads what it
stores, and with a class that inherits the constructor. -/
def inheritingModule : Code :=
  let read (name : String) : Code := (((((CodeBuilder.new name).addParams ["self"]).op
    (.loadFast "self")).op (.loadAttr "x")).op .returnValue).build
  let init := ((((((CodeBuilder.new "__init__").addParams ["self"]).loadConst (.int 1)).op
    (.loadFast "self")).op (.storeAttr "x")).returnNone).build
  let first := (((CodeBuilder.classBody "A").defFunction (read "get") "get").defFunction init
    "__init__").returnNone.build
  let second := ((CodeBuilder.classBody "B").defFunction (read "read") "read").returnNone.build
  ((CodeBuilder.module.defClass first "A" []).defClass second "B" ["A"]).returnNone.build

/-- The analysis runs the constructor of the first class last, its declaration runs it first. -/
theorem inheritingModule_onInstance :
    let ctx := (session interpreter [.runModule inheritingModule] (.new .standard)).2.context
    ∃ frames t declared u inst turns inst' turns',
      analyseClass (.atDepth 4096) ⟨21⟩ ctx = (.ok frames, t) ∧
      Turns.OnInstance (.atDepth 4095) ⟨21⟩ ctx inst turns t ∧
      turns.map Turn.function = [⟨17⟩, ⟨18⟩] ∧ turns.map Turn.frame = frames ∧
      declareClass (.atDepth 4096) ⟨21⟩ ctx = (.ok declared, u) ∧
      Turns.OnInstance (.atDepth 4095) ⟨21⟩ ctx inst' turns' u ∧
      turns'.map Turn.function = [⟨18⟩, ⟨17⟩] := by
  intro ctx
  have grown : Builtins.heap.Grows ctx.heap :=
    (session_grows (m := .new .standard) (interpreter_mirrors (.past .empty)) _).context.heap
  have built : ctx.heap.isBuilt ⟨21⟩ = true := by decide +kernel
  obtain ⟨frames, t, analysed⟩ := Step.exists_of_isOk
    (r := analyseClass (.atDepth 4096) ⟨21⟩ ctx) (by decide +kernel)
  obtain ⟨declared, u, declares⟩ := Step.exists_of_isOk
    (r := declareClass (.atDepth 4096) ⟨21⟩ ctx) (by decide +kernel)
  have listed : (ctx.heap.classAt ⟨21⟩).functions = [⟨17⟩, ⟨18⟩] := by decide +kernel
  have shown : ctx.heap.declaredFunctions (ctx.heap.classAt ⟨21⟩) = [⟨18⟩, ⟨17⟩] := by
    decide +kernel
  obtain ⟨analysis, declaration⟩ := onInstance_of_analysis grown built
  obtain ⟨inst, turns, taken, functions, recorded⟩ := analysis frames t analysed
  obtain ⟨inst', turns', taken', functions'⟩ := declaration declared u declares
  exact ⟨frames, t, declared, u, inst, turns, inst', turns', analysed, taken,
    functions.trans listed, recorded, declares, taken', functions'.trans shown⟩

/-- Both classes of the module have a constructor that stores the attribute. The analysis runs it too
late for the first class and never for the second, so the attribute is missed on both instances, and
the stub misses it on that of the second. -/
theorem inheritingModule_misses : ∃ id m m' stub m'',
    runModule inheritingModule (.new .standard) = (.ok id, m) ∧
      (m.context.heap.lookup? ⟨21⟩ "__init__").bind Value.asFunction? = some ⟨18⟩ ∧
      (m.context.heap.lookup? ⟨22⟩ "__init__").bind Value.asFunction? = some ⟨18⟩ ∧
      m.context.log = [] ∧ analyseDefinitions m = (.ok (), m') ∧
      m'.context.log.map Finding.kind =
        [.attributeError "<A instance>" "x", .attributeError "<B instance>" "x"] ∧
      inferStub m = (.ok stub, m'') ∧
      m''.context.log.map Finding.kind = [.attributeError "<B instance>" "x"] := by
  obtain ⟨id, m, run⟩ := Step.exists_of_isOk
    (r := runModule inheritingModule (.new .standard)) (by decide +kernel)
  have hm : m = (runModule inheritingModule (.new .standard)).2 := by rw [run]
  obtain ⟨_, m', analysed⟩ := Step.exists_of_isOk
    (r := analyseDefinitions m) (by rw [hm]; decide +kernel)
  have hm' : m' = (analyseDefinitions m).2 := by rw [analysed]
  obtain ⟨stub, m'', inferred⟩ := Step.exists_of_isOk
    (r := inferStub m) (by rw [hm]; decide +kernel)
  have hm'' : m'' = (inferStub m).2 := by rw [inferred]
  refine ⟨id, m, m', stub, m'', run, ?_, ?_, ?_, analysed, ?_, inferred, ?_⟩
  all_goals first | rw [hm', hm] | rw [hm'', hm] | rw [hm]
  all_goals decide +kernel

end Machine

end StubInference
