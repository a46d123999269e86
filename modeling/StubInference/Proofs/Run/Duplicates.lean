import StubInference.Proofs.Run.Unions
import StubInference.Proofs.Value.Types

/-!
# Duplicates

A value that equals one that is there already is dropped, from the values of a variable and from the
members of a union. The equality that decides it passes over where values were bound and over the order of
keyword arguments, so what is dropped need not be identical to what stays. It is an equivalence, and equal
values show the same: they have the same type in a stub and the same text in a finding, whatever is in the
heap. So a variable without its duplicates declares the type that it would declare with them, and leaves the
same findings behind. And it does not matter which of several equal values a variable or a union keeps.

Tables of keyword arguments bind every name once. This is what makes the equality reflexive.

## Main definitions

* `Log.reporting` — the log once several findings were made at one position
* `Value.Refuses` — a value whose calls do nothing but report that it cannot be called
* `Variable.keeping` — the variable that keeps its duplicates
* `Variable.Gathers` — a variable that holds the first of any equal values only
* `Variable.StandsFor` — a variable that is all the same as several values
* `SameLaws` — what the equality has to satisfy

## Main results

* `Value.same_argDict_iff` — equality of keyword arguments by look-ups
* `Value.describe_eq_of_same`, `Value.attribute?_eq_of_same` — equal values have the same text and the same
  attributes
* `Variable.Gathers.type_eq`, `Variable.Gathers.loadAttribute_eq`, `Variable.Gathers.callVariable_eq` — a
  variable without its duplicates
* `Value.join_of_repeated`, `Value.join_same`, `Variable.ofValues_same` — a join without a duplicate, and
  which of several equal values is kept
* `same_laws` — the equality satisfies all of it
-/

namespace StubInference

open Stub.TypeExpr (unionAll unionAll_flatMap_gatherBy unionAll_map_gatherBy)

/-! ## The equality -/

theorem Literal.same_iff {a b : Literal} : a.same b = true ↔ a = b :=
  ⟨eq_of_same, fun h => h ▸ same_refl a⟩

/-- Keyword arguments are equal when every name is bound in both or in none, and to equal variables. -/
theorem Value.same_argDict_iff {es fs : List (String × Variable)} (hes : (NameMap.names es).Nodup)
    (hfs : (NameMap.names fs).Nodup) :
    (Value.argDict (some es)).same (.argDict (some fs)) = true ↔
      ∀ name, Option.Rel (fun v w => v.same w = true) (NameMap.get? es name)
        (NameMap.get? fs name) := by
  simp only [Value.same, Variable.sameNames, Bool.and_eq_true, beq_iff_eq, Variable.namesWithin_iff]
  constructor
  · rintro ⟨size, within⟩ name
    have names := NameMap.names_perm hes size fun e he => (within e he).imp fun _ found => found.1
    cases bound : NameMap.get? es name with
    | some v =>
      obtain ⟨w, found, same⟩ := within _ (NameMap.mem_of_get? bound)
      rw [found]
      exact .some same
    | none =>
      rw [NameMap.get?_eq_none_iff, names.mem_iff, ← NameMap.get?_eq_none_iff] at bound
      rw [bound]
      exact .none
  · intro related
    have names : (NameMap.names es).Perm (NameMap.names fs) := by
      refine (List.perm_ext_iff_of_nodup hes hfs).mpr fun name => not_iff_not.mp ?_
      have here := related name
      rw [← NameMap.get?_eq_none_iff, ← NameMap.get?_eq_none_iff]
      generalize NameMap.get? es name = v, NameMap.get? fs name = w at here
      cases here <;> simp
    refine ⟨by simpa [NameMap.names] using names.length_eq, fun e he => ?_⟩
    have here := related e.1
    rw [NameMap.get?_of_mem hes he] at here
    cases found : NameMap.get? fs e.1 with
    | none =>
      rw [found] at here
      cases here
    | some w =>
      rw [found] at here
      cases here with
      | some same => exact ⟨w, rfl, same⟩

theorem Value.Keyed.argDict {entries : List (String × Variable)} (distinct : (NameMap.names entries).Nodup)
    (held : ∀ e ∈ entries, e.2.Keyed) : (Value.argDict (some entries)).Keyed := by
  refine .intro (fun _ none => nomatch none) ?_ fun _ h => ?_
  · intro v hv
    obtain ⟨e, he, rfl⟩ := List.mem_map.mp hv
    exact held e he
  · cases h
    exact distinct

/-! ## What equal values show -/

theorem Value.describeAll_eq_map (heap : Heap) (as : List Value) :
    Value.describeAll heap as = as.map (Value.describe heap) := by
  induction as with
  | nil => rfl
  | cons a as ih => rw [Value.describeAll, ih, List.map_cons]

section Shown

variable {heap : Heap} {name : String}

/-- A union is described by its members, and other values by what their equality compares. -/
theorem Value.describe_eq_of_same {a b : Value} (h : a.same b = true) :
    a.describe heap = b.describe heap := by
  suffices all : (∀ a b : Value, a.same b = true → a.describe heap = b.describe heap) ∧
      ∀ _ : Variable, True from all.1 a b h
  apply Value.parts_induction
  · intro a inner _ b same
    cases a with
    | union members =>
      -- a union equals only another union
      cases b <;> simp only [Value.same, Bool.false_eq_true] at same
      have texts := map_eq_of_forall₂ inner (Value.sameAll_iff.mp same)
      rw [Value.describe, Value.describe, Value.describeAll_eq_map, Value.describeAll_eq_map]
      exact congrArg (fun texts => "Union[" ++ ", ".intercalate texts ++ "]") texts
    | _ => exact (@Value.Alike.reads _ _ heap "" (.inr same) rfl).2
  · exact fun _ _ => trivial

/-- The values that reading an attribute finds on a value. -/
def Value.found (heap : Heap) (name : String) (a : Value) : List Value :=
  match a.attribute? heap name with
  | some w => w.values
  | none => []

theorem Value.attributeValues_eq (heap : Heap) (name : String) (as : List Value) :
    Value.attributeValues heap name as = as.flatMap (Value.found heap name) := by
  induction as with
  | nil => rfl
  | cons a as ih => rw [Value.attributeValues, ih]; rfl

/-- A union is asked through its members, and other values answer by what their equality compares. -/
theorem Value.attribute?_eq_of_same {a b : Value} (h : a.same b = true) :
    a.attribute? heap name = b.attribute? heap name := by
  suffices all : (∀ a b : Value, a.same b = true → a.attribute? heap name = b.attribute? heap name) ∧
      ∀ _ : Variable, True from all.1 a b h
  apply Value.parts_induction
  · intro a inner _ b same
    cases a with
    | union members =>
      cases b <;> simp only [Value.same, Bool.false_eq_true] at same
      rename_i others
      have each : members.map (Value.found heap name) = others.map (Value.found heap name) :=
        map_eq_of_forall₂ (fun m hm n alike => by rw [Value.found, Value.found, inner m hm n alike])
          (Value.sameAll_iff.mp same)
      have all : Value.attributeValues heap name members = Value.attributeValues heap name others := by
        rw [Value.attributeValues_eq, Value.attributeValues_eq, List.flatMap_def, each, ← List.flatMap_def]
      rw [Value.attribute?, Value.attribute?, all]
    | _ => exact (Value.Alike.reads (.inr same) rfl).1
  · exact fun _ _ => trivial

end Shown

/-! ## The log -/

/-- Recording findings one after the other gathers them. -/
theorem Log.foldl_record_eq_gatherBy (log : Log) (findings : List Finding) :
    findings.foldl Log.record log = gatherBy (· == ·) log findings := by
  induction findings generalizing log with
  | nil => rfl
  | cons finding rest ih =>
    have known : log.any (· == finding) = decide (finding ∈ log) := by
      rw [List.any_beq', List.contains_eq_mem]
    rw [List.foldl_cons, ih, gatherBy_cons, known, Log.record]
    simp only [decide_eq_true_eq]

/-- The log once all of these have been reported at one position. -/
def Log.reporting (log : Log) (position : Position) (kinds : List FindingKind) : Log :=
  kinds.foldl (fun log kind => log.record ⟨kind, position⟩) log

theorem Log.reporting_eq (log : Log) (position : Position) (kinds : List FindingKind) :
    log.reporting position kinds = gatherBy (· == ·) log (kinds.map (⟨·, position⟩)) := by
  rw [← foldl_record_eq_gatherBy, List.foldl_map]
  rfl

/-- The state once all of these have been reported at the current position. -/
def Context.reporting (ctx : Context) (kinds : List FindingKind) : Context :=
  { ctx with log := ctx.log.reporting ctx.position kinds }

/-! ## Reads that find nothing -/

/-- What is reported of a value when an attribute is read. -/
def Value.complaints (heap : Heap) (name : String) (a : Value) : List FindingKind :=
  if (a.attribute? heap name).isNone then [a.missing heap name] else []

theorem Execution.reportingLacking_eq (s : Execution) (name : String) (v : Variable) :
    s.reportingLacking name v =
      ⟨s.frame, s.context.reporting (v.values.flatMap (Value.complaints s.context.heap name))⟩ := by
  have kinds (heap : Heap) (as : List Value) :
      (as.filter fun a => (a.attribute? heap name).isNone).map (Value.missing heap name) =
        as.flatMap (Value.complaints heap name) := by
    induction as with
    | nil => rfl
    | cons a as ih =>
      rw [List.flatMap_cons, ← ih, Value.complaints, List.filter_cons]
      split <;> rfl
  rw [← kinds]
  rfl

/-! ## Calls that are refused -/

/-- Every call of the value does nothing but report that it cannot be called. -/
def Value.Refuses (heap : Heap) (a : Value) : Prop :=
  ∀ (ev : Evaluator) (args : Args) (ctx : Context), ctx.heap = heap →
    callValue ev args a ctx = notCallable a ctx

/-- What is reported of a value that cannot be called. -/
def Value.refusal (heap : Heap) (a : Value) : FindingKind := .notCallable (a.describe heap)

theorem Value.refuses_of_kind {heap : Heap} {a : Value}
    (data : a.kind ∈ [.constant, .tuple, .list, .dict, .argTuple, .argDict]) : a.Refuses heap := by
  cases a <;> first | exact fun _ _ _ _ => rfl | (cases data; contradiction)

theorem callAll_of_refuses {ev : Evaluator} {args : Args} {ctx : Context} {callees : List Value}
    (refuse : ∀ a ∈ callees, a.Refuses ctx.heap) : callAll ev args callees ctx =
      (.ok (callees.map fun _ => .any), ctx.reporting (callees.map (Value.refusal ctx.heap))) := by
  induction callees generalizing ctx with
  | nil => rfl
  | cons a rest ih =>
    obtain ⟨first, others⟩ := List.forall_mem_cons.mp refuse
    have called : callValue ev args a ctx = (.ok Value.any.var, ctx.reporting [a.refusal ctx.heap]) := by
      rw [first ev args ctx rfl]
      rfl
    have later : callAll ev args rest (ctx.reporting [a.refusal ctx.heap]) = _ := ih others
    rw [callAll, Step.bind_of_ok called, Step.bind_of_ok later]
    rfl

theorem Variable.ofValues_any (callees : List Value) :
    Variable.ofValues (callees.map fun _ => .any) = Value.any.var := by
  cases callees with
  | nil => rfl
  | cons a rest =>
    have known : ∀ b ∈ (rest.map fun _ => Value.any).map (Binding.mk · .synthetic),
        [Binding.mk Value.any .synthetic].any (sameValue · b) = true := by
      rw [List.map_map]
      exact List.forall_mem_map.mpr fun _ _ => rfl
    rw [ofValues_eq, List.map_cons, List.map_cons, gatherBy_cons]
    exact congrArg ofDistinct (gatherBy_of_known known)

/-- A variable whose values all refuse a call gives anything, and each of them is reported. -/
theorem callVariable_of_refuses {ev : Evaluator} {args : Args} {ctx : Context} {callees : Variable}
    (refuse : ∀ a ∈ callees.values, a.Refuses ctx.heap) : callVariable ev callees args ctx =
      (.ok Value.any.var, ctx.reporting (callees.values.map (Value.refusal ctx.heap))) := by
  rw [callVariable, Step.bind_of_ok (callAll_of_refuses refuse), Variable.ofValues_any]
  rfl

/-! ## Variables without their duplicates -/

/-- The variable that keeps its duplicates. -/
def Variable.keeping (values : List Value) : Variable := .ofBindings (values.map (⟨·, .synthetic⟩))

/-- A variable holds the first of any equal values that went into it. -/
def Variable.Gathers (v : Variable) (values : List Value) : Prop :=
  v.values = firstOccurrences Value.same values

theorem Variable.values_keeping (values : List Value) : (keeping values).values = values := by
  rw [keeping, Variable.values, bindings, List.map_map]
  exact List.map_id values

namespace Variable.Gathers

variable {v : Variable} {values : List Value}

theorem iff_gatherBy : v.Gathers values ↔ v.values = gatherBy Value.same [] values := by
  rw [Gathers, gatherBy_nil Value.transitive_same]

theorem ofValues (some : values ≠ []) : (Variable.ofValues values).Gathers values := by
  rw [iff_gatherBy, values_ofValues, if_neg some, Value.addNew_eq_gatherBy]

theorem merge {vars : List Variable} (some : vars.flatMap Variable.values ≠ []) :
    (Variable.merge vars).Gathers (vars.flatMap Variable.values) := by
  rw [iff_gatherBy, values_merge, if_neg some, Value.addNew_eq_gatherBy]

theorem mergeWith (hv : v.Irredundant) (w : Variable) :
    (v.mergeWith w).Gathers (v.values ++ w.values) := by
  have distinct : v.values.Pairwise fun a b => a.same b = false := List.pairwise_map.mpr hv.distinct
  rw [iff_gatherBy, values_mergeWith, Value.addNew_eq_gatherBy, gatherBy_append,
    gatherBy_nil_of_pairwise distinct]

theorem type_eq (gathers : v.Gathers values) (heap : Heap) : v.type heap = (keeping values).type heap := by
  rw [Variable.type_eq, Variable.type_eq, values_keeping, iff_gatherBy.mp gathers]
  exact unionAll_map_gatherBy (fun _ _ same => Value.type_eq_of_same same) values

/-- Equal values are asked and reported alike, so all the answers are there, and all the reports. -/
theorem flatMap_eq_nil_iff {α : Type} {held : Value → List α} (gathers : v.Gathers values)
    (congr : ∀ a b : Value, a.same b = true → held a = held b) :
    v.values.flatMap held = [] ↔ values.flatMap held = [] := by
  rw [iff_gatherBy.mp gathers, List.flatMap_eq_nil_iff, List.flatMap_eq_nil_iff]
  constructor
  · intro none a ha
    obtain ⟨b, hb, rfl | same⟩ := @exists_mem_gatherBy _ Value.same _ _ [] ha
    · exact none b hb
    · rw [← congr b a same]
      exact none b hb
  · intro none a ha
    exact none a (mem_of_mem_gatherBy_nil ha)

/-- Where equal values are reported alike, one report stands for all. -/
theorem reporting_eq {kinds : Value → List FindingKind} (gathers : v.Gathers values)
    (congr : ∀ a b : Value, a.same b = true → kinds a = kinds b) (log : Log) (position : Position) :
    log.reporting position (v.values.flatMap kinds) = log.reporting position (values.flatMap kinds) := by
  rw [Log.reporting_eq, Log.reporting_eq, List.map_flatMap, List.map_flatMap, iff_gatherBy.mp gathers]
  exact gatherBy_flatMap_congr (fun a b same => by rw [congr a b same]) log [] values

/-- A call of values that cannot be called comes to the same. -/
theorem callVariable_eq (gathers : v.Gathers values) {ev : Evaluator} {args : Args} {ctx : Context}
    (refuse : ∀ a ∈ values, a.Refuses ctx.heap) :
    callVariable ev v args ctx = callVariable ev (keeping values) args ctx := by
  have held : ∀ a ∈ v.values, a ∈ values := by
    intro a ha
    rw [iff_gatherBy.mp gathers] at ha
    exact mem_of_mem_gatherBy_nil ha
  have kept : ∀ a ∈ (keeping values).values, a.Refuses ctx.heap := by rwa [values_keeping]
  have reports : ctx.log.reporting ctx.position (v.values.map (Value.refusal ctx.heap)) =
      ctx.log.reporting ctx.position (values.map (Value.refusal ctx.heap)) := by
    rw [List.map_eq_flatMap, List.map_eq_flatMap]
    exact gathers.reporting_eq
      (fun a b same => by rw [Value.refusal, Value.refusal, Value.describe_eq_of_same same]) _ _
  rw [callVariable_of_refuses fun a ha => refuse a (held a ha), callVariable_of_refuses kept,
    values_keeping, Context.reporting, Context.reporting, reports]

/-- The type of a variable that holds each of some values once. -/
theorem type_ofValues (some : values ≠ []) (heap : Heap) :
    (Variable.ofValues values).type heap = unionAll (values.map (Value.type heap)) := by
  rw [(Gathers.ofValues some).type_eq heap, Variable.type_eq, values_keeping]

/-- What answers to a read have in common does not depend on duplicates. -/
theorem type_answers_eq {answers : Value → List Value} (gathers : v.Gathers values)
    (congr : ∀ a b : Value, a.same b = true → answers a = answers b) (heap : Heap) :
    (Variable.ofValues (v.values.flatMap answers)).type heap =
      (Variable.ofValues (values.flatMap answers)).type heap := by
  by_cases none : values.flatMap answers = []
  · rw [(gathers.flatMap_eq_nil_iff congr).mpr none, none]
  · rw [type_ofValues (mt (gathers.flatMap_eq_nil_iff congr).mp none), type_ofValues none,
      List.map_flatMap, List.map_flatMap, iff_gatherBy.mp gathers]
    exact unionAll_flatMap_gatherBy (fun a b same => by rw [congr a b same]) values

/-- A read of an attribute gives a variable of the same type and leaves the same behind. -/
theorem loadAttribute_eq (gathers : v.Gathers values) (name : String) (s : Execution) :
    ∃ found kept after, FrameStep.loadAttribute v name s = (.ok found, after) ∧
      FrameStep.loadAttribute (keeping values) name s = (.ok kept, after) ∧
      ∀ heap, found.type heap = kept.type heap := by
  have answers (a b : Value) (same : a.same b = true) :
      a.answers s.context.heap name = b.answers s.context.heap name := by
    rw [Value.answers, Value.answers, Value.attribute?_eq_of_same same]
  have complaints (a b : Value) (same : a.same b = true) :
      a.complaints s.context.heap name = b.complaints s.context.heap name := by
    rw [Value.complaints, Value.complaints, Value.missing, Value.missing,
      Value.attribute?_eq_of_same same, Value.describe_eq_of_same same]
  have reports : s.reportingLacking name v = s.reportingLacking name (keeping values) := by
    rw [Execution.reportingLacking_eq, Execution.reportingLacking_eq, values_keeping, Context.reporting,
      Context.reporting, gathers.reporting_eq complaints]
  refine ⟨_, _, _, FrameStep.loadAttribute_eq, by rw [FrameStep.loadAttribute_eq, reports], fun heap => ?_⟩
  rw [values_keeping]
  exact gathers.type_answers_eq answers heap

end Variable.Gathers

/-! ## Members of unions -/

theorem exists_mem_of_forall₂ {α : Type} {R : α → α → Prop} {as bs : List α} {b : α}
    (related : List.Forall₂ R as bs) (h : b ∈ bs) : ∃ a ∈ as, R a b := by
  induction related with
  | nil => cases h
  | cons first _ ih =>
    rcases List.mem_cons.mp h with rfl | h
    · exact ⟨_, List.mem_cons_self, first⟩
    · obtain ⟨a, ha, hab⟩ := ih h
      exact ⟨a, List.mem_cons_of_mem _ ha, hab⟩

/-- Related items are gathered to related ones, where the equality does not tell them apart. -/
theorem gatherBy_of_forall₂ {α : Type} {same : α → α → Bool} {R : α → α → Prop} {known others as bs : List α}
    (congr : ∀ a b c d, R a b → R c d → same a c = same b d) (start : List.Forall₂ R known others)
    (related : List.Forall₂ R as bs) :
    List.Forall₂ R (gatherBy same known as) (gatherBy same others bs) := by
  induction related generalizing known others with
  | nil => exact start
  | @cons a b as bs first _ ih =>
    have found : known.any (same · a) = others.any (same · b) := by
      -- an induction on what is known so far, without the hypothesis on what comes later
      clear ih
      induction start with
      | nil => rfl
      | cons here _ ih => rw [List.any_cons, List.any_cons, ih, congr _ _ _ _ here first]
    rw [gatherBy_cons, gatherBy_cons, found]
    split
    · exact ih start
    · exact ih (List.rel_append start (.cons first .nil))

section Kept

variable {as bs front back : List Value} {a b : Value}

/-- Equal values bring equal members into a join. -/
theorem Value.members_of_same (h : a.same b = true) :
    List.Forall₂ (fun a b => a.same b = true) a.members b.members := by
  cases a with
  | union members =>
    cases b <;> simp only [Value.same, Bool.false_eq_true] at h
    exact sameAll_iff.mp h
  | _ =>
    have plain : b.members = [b] := members_of_kind fun union => by
      cases b <;> cases union
      cases h
    rw [plain]
    exact .cons h .nil

/-- A join shows the texts of all members that went into it. -/
theorem Value.mem_texts_join {values : List Value} {heap : Heap} {text : String} (some : values ≠ [])
    (reduced : ∀ a ∈ values, a.Reduced) : text ∈ (join values).members.map (describe heap) ↔
      text ∈ (values.flatMap members).map (describe heap) := by
  rw [members_join reduced some, List.mem_map, List.mem_map]
  constructor
  · rintro ⟨a, ha, shown⟩
    exact ⟨a, mem_of_mem_gatherBy_nil ha, shown⟩
  · rintro ⟨a, ha, shown⟩
    obtain ⟨b, hb, rfl | same⟩ := @exists_mem_gatherBy _ Value.same _ _ [] ha
    · exact ⟨b, hb, shown⟩
    · exact ⟨b, hb, (describe_eq_of_same same).trans shown⟩

/-- A value that equals an earlier one can be left out of a join. -/
theorem Value.join_of_repeated (earlier : b ∈ front) (h : b.same a = true) :
    join (front ++ a :: back) = join (front ++ back) := by
  have known : ∀ m ∈ a.members, (gatherBy Value.same [] (front.flatMap members)).any (same · m) = true := by
    intro m hm
    obtain ⟨n, hn, same⟩ := exists_mem_of_forall₂ (members_of_same h) hm
    rw [any_gatherBy transitive_same, List.any_nil, Bool.false_or]
    exact List.any_eq_true.mpr ⟨n, List.mem_flatMap.mpr ⟨b, earlier, hn⟩, same⟩
  rw [join_eq, join_eq, List.flatMap_append, List.flatMap_append, List.flatMap_cons, gatherBy_append,
    gatherBy_append, gatherBy_append, gatherBy_of_known known]

/-- A value that equals an earlier one can be left out of a variable. -/
theorem Variable.ofValues_of_repeated (earlier : b ∈ front) (h : b.same a = true) :
    ofValues (front ++ a :: back) = ofValues (front ++ back) := by
  have known : ∀ c ∈ [Binding.mk a .synthetic],
      (gatherBy sameValue [] (front.map (Binding.mk · .synthetic))).any (sameValue · c) = true := by
    rw [List.forall_mem_singleton, any_gatherBy sameValue_trans, List.any_nil, Bool.false_or, List.any_map]
    exact List.any_eq_true.mpr ⟨b, earlier, h⟩
  rw [ofValues_eq, ofValues_eq, List.map_append, List.map_append, List.map_cons, gatherBy_append,
    gatherBy_append, ← List.singleton_append, gatherBy_append, gatherBy_of_known known]

/-! ## Which of equal values is kept -/

/-- Equality of values that are keyed, as those are that the analysis makes. -/
def Value.Equal (a b : Value) : Prop := a.Keyed ∧ a.same b = true

theorem Value.Equal.congr {c d : Value} (h : a.Equal b) (h' : c.Equal d) : a.same c = b.same d := by
  obtain ⟨keyed, same⟩ := h
  obtain ⟨keyed', same'⟩ := h'
  rw [Bool.eq_iff_iff]
  constructor
  · intro ac
    exact same_trans (keyed.same_symm same) (same_trans ac same')
  · intro bd
    exact same_trans same (same_trans bd (keyed'.same_symm same'))

theorem Value.Equal.members (h : a.Equal b) : List.Forall₂ Value.Equal a.members b.members := by
  have keyed : ∀ m ∈ a.members, m.Keyed := by
    cases a with
    | union members => exact h.1.inner
    | _ => exact List.forall_mem_singleton.mpr h.1
  exact (List.forall₂_and_left _ _).mpr ⟨keyed, members_of_same h.2⟩

/-- Equal members make up equal values. -/
theorem Value.ofMembers_same (related : List.Forall₂ Value.Equal as bs) :
    (ofMembers as).same (ofMembers bs) = true := by
  cases related with
  | nil => rfl
  | cons first rest =>
    cases rest with
    | nil => exact first.2
    | cons second more =>
      have equal := List.Forall₂.cons first (.cons second more)
      exact sameAll_iff.mpr (equal.imp fun _ _ h => h.2)

/-- Joins of equal values are equal. -/
theorem Value.join_same (related : List.Forall₂ Value.Equal as bs) :
    (join as).same (join bs) = true := by
  rw [join_eq, join_eq]
  apply ofMembers_same
  exact gatherBy_of_forall₂ (fun _ _ _ _ => Value.Equal.congr) .nil
    (List.rel_flatMap related fun _ _ => Value.Equal.members)

/-- Variables that are made of equal values are equal. -/
theorem Variable.ofValues_same (related : List.Forall₂ Value.Equal as bs) :
    (ofValues as).same (ofValues bs) = true := by
  rw [same_iff, values_ofValues, values_ofValues, Value.addNew_eq_gatherBy, Value.addNew_eq_gatherBy]
  have gathered : List.Forall₂ Value.Equal (gatherBy Value.same [] as) (gatherBy Value.same [] bs) :=
    gatherBy_of_forall₂ (fun _ _ _ _ => Value.Equal.congr) .nil related
  cases related with
  | nil => exact .cons rfl .nil
  | cons => exact gathered.imp fun _ _ h => h.2

end Kept

/-! ## All laws -/

/-- A variable is all the same as several values, duplicates and all: it declares the type that they
declare, whoever reads an attribute is told the same, and so is who calls what cannot be called. -/
structure Variable.StandsFor (v : Variable) (values : List Value) : Prop where
  type_eq : ∀ heap, v.type heap = (Variable.keeping values).type heap
  reads : ∀ (name : String) (s : Execution), ∃ found kept after,
    FrameStep.loadAttribute v name s = (.ok found, after) ∧
    FrameStep.loadAttribute (.keeping values) name s = (.ok kept, after) ∧
    ∀ heap, found.type heap = kept.type heap
  calls : ∀ (ev : Evaluator) (args : Args) (ctx : Context), (∀ a ∈ values, a.Refuses ctx.heap) →
    callVariable ev v args ctx = callVariable ev (.keeping values) args ctx

/-- The laws of the equality that drops duplicates. -/
structure SameLaws : Prop where
  /-- Literals are taken by all they consist of. -/
  literal_iff : ∀ a b : Literal, a.same b = true ↔ a = b
  constant_iff : ∀ a b : Literal, (Value.literal a).same (.literal b) = true ↔ a = b
  /-- Variables are taken by their values in order. -/
  variable_iff : ∀ v w : Variable, v.same w = true ↔
    List.Forall₂ (fun a b => a.same b = true) v.values w.values
  /-- Keyword arguments are taken by name. -/
  keywords_iff : ∀ es fs : List (String × Variable), (NameMap.names es).Nodup → (NameMap.names fs).Nodup →
    ((Value.argDict (some es)).same (.argDict (some fs)) = true ↔ ∀ name,
      Option.Rel (fun v w => v.same w = true) (NameMap.get? es name) (NameMap.get? fs name))
  values_equivalence : Equivalence fun a b : {a : Value // a.Keyed} => a.1.same b.1 = true
  variables_equivalence : Equivalence fun v w : {v : Variable // v.Keyed} => v.1.same w.1 = true
  /-- Equal values have the same type and the same text in every heap. -/
  shown : ∀ (a b : Value) (heap : Heap), a.same b = true →
    a.type heap = b.type heap ∧ a.describe heap = b.describe heap
  declared : ∀ (v w : Variable) (heap : Heap), v.same w = true → v.type heap = w.type heap
  /-- Every way to make a variable drops the duplicates of its values. -/
  made : ∀ values, values ≠ [] → (Variable.ofValues values).Gathers values
  merged : ∀ vars : List Variable, vars.flatMap Variable.values ≠ [] →
    (Variable.merge vars).Gathers (vars.flatMap Variable.values)
  merged_with : ∀ v w : Variable, v.Irredundant → (v.mergeWith w).Gathers (v.values ++ w.values)
  /-- What is dropped is not missed. -/
  standsFor : ∀ (v : Variable) (values : List Value), v.Gathers values → v.StandsFor values
  /-- A join has the type and shows the texts of all its members. -/
  joined : ∀ (values : List Value) (heap : Heap), values ≠ [] → (∀ a ∈ values, a.Reduced) →
    (Value.join values).type heap = unionAll (values.map (Value.type heap)) ∧
    ∀ text, text ∈ (Value.join values).members.map (Value.describe heap) ↔
      text ∈ (values.flatMap Value.members).map (Value.describe heap)
  /-- An operand that equals an earlier one can be left out. -/
  repeated : ∀ (front back : List Value) (a b : Value), b ∈ front → b.same a = true →
    Value.join (front ++ a :: back) = Value.join (front ++ back) ∧
    Variable.ofValues (front ++ a :: back) = Variable.ofValues (front ++ back)
  /-- Of equal operands either can be kept. -/
  congr : ∀ as bs : List Value, List.Forall₂ Value.Equal as bs →
    (Value.join as).same (Value.join bs) = true ∧
    (Variable.ofValues as).same (Variable.ofValues bs) = true

/-- The equality that drops duplicates takes literals by all they consist of, variables by their values in
order and keyword arguments by name, and it is an equivalence. Equal values have the same type and the same
text in every heap, and equal variables the same type. So a variable without its duplicates declares the
type that it would declare with them, and whoever reads its attributes or calls what cannot be called is
told the same. A join has the type and shows the texts of all its members, neither it nor a variable changes
when an operand is left out that equals an earlier one, and of equal operands either can be kept. -/
theorem same_laws : SameLaws where
  literal_iff _ _ := Literal.same_iff
  constant_iff _ _ := beq_iff_eq
  variable_iff _ _ := Variable.same_iff
  keywords_iff _ _ := Value.same_argDict_iff
  values_equivalence :=
    ⟨fun a => a.2.same_refl, fun {a _} h => a.2.same_symm h, fun h h' => Value.same_trans h h'⟩
  variables_equivalence :=
    ⟨fun v => v.2.same_refl, fun {v _} h => v.2.same_symm h, fun h h' => Variable.same_trans h h'⟩
  shown _ _ _ h := ⟨Value.type_eq_of_same h, Value.describe_eq_of_same h⟩
  declared _ _ _ h := Variable.type_eq_of_same h
  made _ some := Variable.Gathers.ofValues some
  merged _ some := Variable.Gathers.merge some
  merged_with _ w hv := Variable.Gathers.mergeWith hv w
  standsFor _ _ gathers :=
    { type_eq := gathers.type_eq
      reads := gathers.loadAttribute_eq
      calls := fun _ _ _ refuse => gathers.callVariable_eq refuse }
  joined _ _ some reduced :=
    ⟨Value.type_join some reduced, fun _ => Value.mem_texts_join some reduced⟩
  repeated _ _ _ _ earlier h :=
    ⟨Value.join_of_repeated earlier h, Variable.ofValues_of_repeated earlier h⟩
  congr _ _ related := ⟨Value.join_same related, Variable.ofValues_same related⟩

/-- Keyword arguments come once more in another order and from another line, next to a double that is no
number. They are the receiver of a method too. -/
theorem same_laws_of_keywords :
    let one := Value.literal (.int 1)
    let nan := Value.literal (.float 0x7ff8000000000000)
    let entries := [("x", one.var), ("y", nan.var)]
    let swapped := [("y", .ofValueAt nan (.line 3)), ("x", one.var)]
    let first := Value.argDict (some entries)
    let again := Value.argDict (some swapped)
    let v := Variable.ofValues [first, nan, again]
    let kept := Variable.keeping [first, nan, again]
    let s : Execution := ⟨default, Context.new .standard⟩
    let heap := s.context.heap
    (∀ name, Option.Rel (fun v w => v.same w = true) (NameMap.get? entries name)
        (NameMap.get? swapped name)) ∧
      again.same first = true ∧
      (Value.bound first ⟨0⟩).describe heap = (Value.bound again ⟨0⟩).describe heap ∧
      first.var.type heap = again.var.type heap ∧
      v.values = [first, nan] ∧
      (v.mergeWith kept).Gathers ([first, nan] ++ [first, nan, again]) ∧
      v.type heap = kept.type heap ∧
      (∃ found other after, FrameStep.loadAttribute v "z" s = (.ok found, after) ∧
        FrameStep.loadAttribute kept "z" s = (.ok other, after) ∧ found.type heap = other.type heap) ∧
      (∀ ev args, callVariable ev v args s.context = callVariable ev kept args s.context) ∧
      (Value.join [first, nan, again]).type heap =
        unionAll [first.type heap, nan.type heap, again.type heap] ∧
      Value.join [first, nan, again] = Value.join [first, nan] ∧
      (Value.join [first, nan]).same (Value.join [again, nan]) = true := by
  intro one nan entries swapped first again v kept s heap
  have laws : SameLaws := same_laws
  have same : first.same again = true := by decide
  have number : nan.Keyed := (Value.Proper.literal _).keyed
  have var (l : Literal) (origin : Origin) : (Variable.ofValueAt (.literal l) origin).Keyed :=
    (Variable.Proper.ofValueAt (.literal l) origin).keyed
  have keyed : first.Keyed :=
    .argDict (by decide) (by simp [entries, one, nan, Value.var, Variable.ofValue, var])
  have other : again.Keyed :=
    .argDict (by decide) (by simp [swapped, one, nan, Value.var, Variable.ofValue, var])
  have made : v.Gathers [first, nan, again] := laws.made _ (List.cons_ne_nil _ _)
  obtain ⟨types, reads, calls⟩ := laws.standsFor v _ made
  obtain ⟨found, held, after, found_eq, held_eq, alike⟩ := reads "z" s
  have plain : ∀ a ∈ [first, nan, again], a.Reduced := by
    simp [first, nan, again, Value.Reduced]
  have data : ∀ a ∈ [first, nan, again], a.kind ∈ [.constant, .tuple, .list, .dict, .argTuple, .argDict] := by
    simp [first, nan, again, Value.kind]
  have refuse : ∀ a ∈ [first, nan, again], a.Refuses heap :=
    fun a ha => Value.refuses_of_kind (data a ha)
  have equal : List.Forall₂ Value.Equal [first, nan] [again, nan] :=
    .cons ⟨keyed, same⟩ (.cons ⟨number, number.same_refl⟩ .nil)
  have values : v.values = [first, nan] := by rw [made]; rfl
  have looked := (laws.keywords_iff entries swapped (by decide) (by decide)).mp same
  have back : again.same first = true :=
    laws.values_equivalence.symm (x := ⟨first, keyed⟩) (y := ⟨again, other⟩) same
  have methods := (laws.shown (.bound first ⟨0⟩) (.bound again ⟨0⟩) heap (by decide)).2
  refine ⟨looked, back, methods, laws.declared _ _ heap (by decide), values, ?_, types heap,
    ⟨found, held, after, found_eq, held_eq, alike heap⟩, fun ev args => calls ev args s.context refuse,
    (laws.joined _ heap (List.cons_ne_nil _ _) plain).1,
    (laws.repeated [first, nan] [] again first List.mem_cons_self same).1, (laws.congr _ _ equal).1⟩
  have irredundant := Variable.irredundant_ofValues [first, nan, again]
  have both := laws.merged_with v kept irredundant
  rwa [values] at both

end StubInference
