import StubInference.Proofs.Frame.Course
import StubInference.Proofs.Frame.Effect
import StubInference.Proofs.Frame.Joins

/-!
# Stores that reach a return

What a module ends with under a name is the join of what its stores of that name bring to a return:
along each path the last store before the return counts, and a path that goes on past another store
or a deletion of the name brings nothing.

## Main definitions

* `mergeEntries` — the join of what two tables bind a name to
* `Frame.Tidy` — a module frame whose tables bind no name twice
* `Visit.Stores` — an instruction that bound a name to a given variable
* `Brought` — what stores bring to a return, the initial locals among them

## Main results

* `Course.final_traced` — final locals hold nothing but what stores bring to a return
* `Course.final_includes` — they hold all of it
-/

namespace StubInference

open BlockState FrameStep

/-! ## Tables that bind no name twice -/

section Tables

variable {here there : NameMap Variable} {name : String} {v : Variable}

theorem NameMap.nodup_insert {α : Type} {map : NameMap α} {a : α} (h : map.names.Nodup) :
    (map.insert name a).names.Nodup := by
  rw [names_insert]
  split
  case isTrue => exact h
  case isFalse hname =>
    refine List.nodup_append.mpr ⟨h, by simp, fun other hother name' hname' => ?_⟩
    obtain rfl := List.mem_singleton.mp hname'
    exact fun heq => hname (heq ▸ hother)

theorem NameMap.nodup_erase {map : NameMap Variable} (h : map.names.Nodup) :
    (map.erase name).names.Nodup :=
  h.sublist (List.filter_sublist.map _)

theorem nodup_mergeLocals (h : here.names.Nodup) : (mergeLocals here there).names.Nodup := by
  induction there generalizing here with
  | nil => exact h
  | cons entry rest ih => exact ih (NameMap.nodup_insert h)

/-- The join of what two tables bind a name to. -/
def mergeEntries (here there : Option Variable) : Option Variable :=
  there.elim here fun w => some (here.elim w (·.mergeWith w))

/-- Joined tables bind a name to the join of what both bind it to. -/
theorem get?_mergeLocals (distinct : there.names.Nodup) :
    (mergeLocals here there).get? name = mergeEntries (here.get? name) (there.get? name) := by
  induction there generalizing here with
  | nil => rfl
  | cons entry rest ih =>
    obtain ⟨key, w⟩ := entry
    obtain ⟨hkey, hrest⟩ := List.nodup_cons.mp distinct
    change (mergeLocals (here.upsert key w (·.mergeWith w)) rest).get? name = _
    rw [ih hrest, NameMap.upsert]
    by_cases hk : key = name
    · subst hk
      have missing : NameMap.get? rest key = none := by
        by_contra hbound
        obtain ⟨u, hu⟩ := Option.ne_none_iff_exists'.mp hbound
        exact hkey (List.mem_map_of_mem (f := (·.1)) (NameMap.mem_of_get? hu))
      rw [missing, NameMap.get?_insert_self]
      simp [mergeEntries, NameMap.get?]
    · rw [NameMap.get?_insert_of_ne _ _ hk]
      simp [NameMap.get?, hk]

end Tables

/-- A module frame whose tables bind no name twice. -/
structure Frame.Tidy (frame : Frame) : Prop where
  module : frame.kind = .module
  locals : frame.state.locals.names.Nodup
  pending : ∀ entry ∈ frame.pending, entry.2.locals.names.Nodup
  final : frame.finalLocals.names.Nodup

namespace Frame.Tidy

variable {here there : Frame} {op : Opcode} {target : Nat}

theorem of_beside (beside : here.Beside there) (h : here.Tidy) : there.Tidy where
  module := beside.kind.trans h.module
  locals := beside.locals ▸ h.locals
  pending := beside.pending ▸ h.pending
  final := beside.final ▸ h.final

theorem of_leads (h : here.Tidy) (leads : FrameStep.Leads target here there) : there.Tidy := by
  cases leads with
  | forward _ locals added beside =>
    refine of_beside beside { h with pending := ?_ }
    refine forall_addPending (P := fun _ state => state.locals.names.Nodup) h.pending
      (locals ▸ h.locals) (fun known merged hknown hm => ?_) added
    rw [locals_merge hm]
    exact nodup_mergeLocals hknown
  | back _ beside => exact of_beside beside h

theorem of_effect (h : here.Tidy) (effect : here.Effect op there) : there.Tidy := by
  cases effect with
  | stores _ _ beside =>
    exact of_beside beside { h with locals := NameMap.nodup_insert h.locals }
  | deletes _ beside => exact of_beside beside { h with locals := NameMap.nodup_erase h.locals }
  | leads _ leads => exact h.of_leads leads
  | returns beside => exact of_beside beside { h with final := nodup_mergeLocals h.final }
  | stays _ _ _ _ beside => exact of_beside beside h

theorem atBlock {s : Execution} (h : s.frame.Tidy) {index : Nat} {entry : Nat × BlockState}
    (known : s.frame.pending.find? (·.1 == index) = some entry) :
    (s.atBlock index entry.2).frame.Tidy where
  module := h.module
  locals := h.pending entry (List.mem_of_find?_eq_some known)
  pending := fun other hother => h.pending other (List.mem_of_mem_filter hother)
  final := h.final

theorem atLine {s : Execution} (h : s.frame.Tidy) (line : Nat) : (s.atLine line).frame.Tidy :=
  ⟨h.module, h.locals, h.pending, h.final⟩

end Frame.Tidy

/-- A run binds no name twice. -/
theorem Course.tidy {ev : Evaluator} {blocks : List Block} {point : Point} {s t : Execution}
    {visits : List Visit} (course : Course ev blocks point s visits t) (tidy : s.frame.Tidy) :
    t.frame.Tidy := by
  induction course with
  | done => exact tidy
  | skip _ _ _ ih => exact ih tidy
  | enter _ known _ ih => exact ih (tidy.atBlock known)
  | @next _ _ _ _ _ instruction _ performed _ _ ih
  | @stop _ _ _ _ _ instruction _ performed _ _ ih =>
    have lined := tidy.atLine instruction.line
    exact ih (lined.of_effect (perform_effect lined.module performed))
  | fall _ jumped _ ih => exact ih (tidy.of_leads (enter_leads rfl (jump_eq_ok.mp jumped)))
  | last _ _ ih => exact ih tidy

/-! ## Stores -/

/-- An instruction neither binds nor unbinds a name. -/
def Opcode.Leaves (name : String) (op : Opcode) : Prop :=
  op.storedName? ≠ some name ∧ op.deletedName? ≠ some name

/-- What an instruction of a module leaves under a name, if it binds or unbinds the name. -/
def Visit.binding? (name : String) (visit : Visit) : Option (Option Variable) :=
  if visit.instruction.opcode.storedName? = some name then
    some visit.before.frame.state.stack.head?
  else if visit.instruction.opcode.deletedName? = some name then some none
  else none

/-- An instruction bound a name to a variable. -/
def Visit.Stores (name : String) (v : Variable) (visit : Visit) : Prop :=
  visit.binding? name = some (some v)

theorem Visit.stores_of_top {visit : Visit} {name : String} {v : Variable}
    (stores : visit.instruction.opcode.storedName? = some name)
    (top : visit.before.frame.state.stack.head? = some v) : visit.Stores name v := by
  rw [Visit.Stores, Visit.binding?, if_pos stores, top]

/-- The top of the stack is what an instruction binds a name to. -/
theorem Visit.Stores.top {visit : Visit} {name : String} {v : Variable} (h : visit.Stores name v) :
    visit.instruction.opcode.storedName? = some name ∧
      visit.before.frame.state.stack.head? = some v := by
  unfold Visit.Stores Visit.binding? at h
  split at h
  case isTrue stores => exact ⟨stores, Option.some.inj h⟩
  case isFalse => split at h <;> cases h

section Instructions

variable {here there : Frame} {op : Opcode} {name : String}

/-- An instruction that leaves a name leaves what it is bound to. -/
theorem Frame.Effect.get?_locals (effect : here.Effect op there) (leaves : op.Leaves name) :
    there.state.locals.get? name = here.state.locals.get? name := by
  cases effect with
  | stores stores _ beside =>
    rw [beside.locals, NameMap.get?_insert_of_ne]
    exact fun heq => leaves.1 (heq ▸ stores)
  | deletes deletes beside =>
    rw [beside.locals, NameMap.get?_erase_of_ne]
    exact fun heq => leaves.2 (heq ▸ deletes)
  | leads _ leads =>
    cases leads with
    | forward _ _ _ beside => rw [beside.locals]
    | back _ beside => rw [beside.locals]
  | returns beside => rw [beside.locals]
  | stays _ _ _ _ beside => rw [beside.locals]

theorem Frame.Effect.block (effect : here.Effect op there) : there.block = here.block := by
  cases effect with
  | stores _ _ beside => exact beside.block
  | deletes _ beside => exact beside.block
  | leads _ leads =>
    cases leads with
    | forward _ _ _ beside => exact beside.block
    | back _ beside => exact beside.block
  | returns beside => exact beside.block
  | stays _ _ _ _ beside => exact beside.block

/-- Jumps leave every name. -/
theorem Opcode.leaves_of_jumpTarget {target : Nat} (jumps : op.jumpTarget? = some target) :
    op.Leaves name := by
  cases op <;> cases jumps <;> exact ⟨nofun, nofun⟩

/-- An instruction that binds a name does not end its path. -/
theorem Opcode.flow_of_storedName (stores : op.storedName? = some name) : flowAfter op = .next := by
  cases op <;> cases stores <;> rfl

/-- The execution stands in the block of a place. -/
def Point.Standing : Point → Frame → Prop
  | .inside place, frame => frame.block = place.block
  | .before _, _ => True

end Instructions

/-! ## Final locals come from stores -/

/-- Values that come from some of the given variables, where there are any. -/
def ComesFrom (S : Variable → Prop) (entry : Option Variable) : Prop :=
  ∀ u, entry = some u → (∃ v, S v) ∧ ∀ a ∈ u.values, ∃ v, S v ∧ a ∈ v.values

section Traced

variable {S : Variable → Prop} {blocks : List Block} {name : String} {here there : Frame}
  {index target : Nat} {x y : Option Variable}

theorem ComesFrom.of_mem {v : Variable} (h : S v) : ComesFrom S (some v) := by
  rintro u ⟨⟩
  exact ⟨⟨v, h⟩, fun a ha => ⟨v, h, ha⟩⟩

theorem comesFrom_none : ComesFrom S none := nofun

theorem ComesFrom.mergeEntries (hx : ComesFrom S x) (hy : ComesFrom S y) :
    ComesFrom S (mergeEntries x y) := by
  cases y with
  | none => exact hx
  | some w =>
    cases x with
    | none => exact hy
    | some v =>
      rintro u ⟨⟩
      refine ⟨(hx v rfl).1, fun a ha => ?_⟩
      exact (Variable.mem_or_mem_of_mem_mergeWith ha).elim ((hx v rfl).2 a) ((hy w rfl).2 a)

/-- What a frame has gathered under a name comes from given variables, as far as it may still be
brought to a return. -/
structure Frame.Traced (blocks : List Block) (name : String) (S : Variable → Prop)
    (frame : Frame) : Prop where
  pending : ∀ entry ∈ frame.pending, ∀ block, blocks[entry.1]? = some block →
    Place.Returns blocks (·.Leaves name) ⟨entry.1, block⟩ →
    ComesFrom S (entry.2.locals.get? name)
  final : ComesFrom S (frame.finalLocals.get? name)

namespace Frame.Traced

theorem of_beside (beside : here.Beside there) (h : here.Traced blocks name S) :
    there.Traced blocks name S where
  pending := beside.pending ▸ h.pending
  final := beside.final ▸ h.final

theorem of_leads (h : here.Traced blocks name S) (tidy : here.Tidy)
    (leads : FrameStep.Leads target here there)
    (brings : here.block < target → ∀ block, blocks[target]? = some block →
      Place.Returns blocks (·.Leaves name) ⟨target, block⟩ →
      ComesFrom S (here.state.locals.get? name)) : there.Traced blocks name S := by
  cases leads with
  | forward forward locals added beside =>
    refine of_beside beside { h with pending := ?_ }
    refine forall_addPending (P := fun index state => ∀ block, blocks[index]? = some block →
      Place.Returns blocks (·.Leaves name) ⟨index, block⟩ →
      ComesFrom S (state.locals.get? name)) h.pending ?_ ?_ added
    · exact fun block found returns => locals ▸ brings forward block found returns
    · intro known merged hknown hm block found returns
      rw [locals_merge hm, get?_mergeLocals (locals ▸ tidy.locals)]
      exact (hknown block found returns).mergeEntries (locals ▸ brings forward block found returns)
  | back _ beside => exact of_beside beside h

/-- An instruction keeps what is traced, where its place is one from which what is bound there comes
from given variables. -/
theorem of_effect (h : here.Traced blocks name S) (tidy : here.Tidy) {instruction : Instruction}
    {rest : List Instruction} (effect : here.Effect instruction.opcode there)
    (standing : here.block = index)
    (brings : Place.Returns blocks (·.Leaves name) ⟨index, instruction :: rest⟩ →
      ComesFrom S (here.state.locals.get? name)) : there.Traced blocks name S := by
  generalize hop : instruction.opcode = op at effect
  cases effect with
  | stores _ _ beside => exact of_beside beside { h with }
  | deletes _ beside => exact of_beside beside { h with }
  | leads jumps leads =>
    refine h.of_leads tidy leads fun forward block found returns => brings ?_
    exact .along (.leap (hop ▸ jumps) (standing ▸ forward) found) returns
  | returns beside =>
    refine of_beside beside { h with final := ?_ }
    rw [addFinalLocals, get?_mergeLocals tidy.locals]
    exact h.final.mergeEntries (brings ⟨_, .refl, instruction, rest, rfl, hop⟩)
  | stays _ _ _ _ beside => exact of_beside beside h

end Frame.Traced

/-- What is bound where a place is traced back comes from given variables. -/
def Point.Traced (blocks : List Block) (name : String) (S : Variable → Prop) (point : Point)
    (frame : Frame) : Prop :=
  ∀ place, point = .inside place → place.Returns blocks (·.Leaves name) →
    ComesFrom S (frame.state.locals.get? name)

/-- Behind an instruction, what a name is bound to comes from given variables if it did before, or
if the instruction stored one of them. -/
theorem Point.traced_behind {ev : Evaluator} {s u : Execution} {instruction : Instruction}
    {rest : List Instruction} (tidy : s.frame.Tidy)
    (performed : perform ev instruction.opcode s = (.ok (), u))
    (flow : flowAfter instruction.opcode = .next)
    (brings : Place.Returns blocks (·.Leaves name) ⟨index, instruction :: rest⟩ →
      ComesFrom S (s.frame.state.locals.get? name))
    (stored : ∀ v, Visit.Stores name v ⟨index, instruction, rest, s, u⟩ →
      Place.Returns blocks (·.Leaves name) ⟨index, rest⟩ → S v) :
    (Point.inside ⟨index, rest⟩).Traced blocks name S u.frame := by
  rintro place ⟨⟩ returns
  -- an instruction that does not leave the name alone stores it or deletes it
  by_cases leaves : instruction.opcode.Leaves name
  · rw [(perform_effect tidy.module performed).get?_locals leaves]
    exact brings (returns.along (.next flow leaves))
  · by_cases stores : instruction.opcode.storedName? = some name
    · obtain ⟨v, more, hs, rfl⟩ := (perform_stores tidy.module stores).mp performed
      have top : s.frame.state.stack.head? = some v := by rw [hs]; rfl
      have bound := stored v (Visit.stores_of_top stores top) returns
      change ComesFrom S ((s.frame.state.locals.insert name v).get? name)
      rw [NameMap.get?_insert_self]
      exact .of_mem bound
    · have deletes : instruction.opcode.deletedName? = some name := by
        by_contra hne
        exact leaves ⟨stores, hne⟩
      rw [perform_deletes tidy.module deletes] at performed
      cases performed
      change ComesFrom S ((s.frame.state.locals.erase name).get? name)
      rw [NameMap.get?_erase_self]
      exact comesFrom_none

/-- Final locals hold nothing but what stores bring to a return. -/
theorem Course.final_traced {ev : Evaluator} {point : Point} {s t : Execution}
    {visits : List Visit} (course : Course ev blocks point s visits t) (tidy : s.frame.Tidy)
    (standing : point.Standing s.frame) (traced : s.frame.Traced blocks name S)
    (here : point.Traced blocks name S s.frame)
    (stored : ∀ visit ∈ visits, ∀ v, visit.Stores name v →
      visit.behind.Returns blocks (·.Leaves name) → S v) :
    ComesFrom S (t.frame.finalLocals.get? name) := by
  induction course with
  | done => exact traced.final
  | skip _ _ _ ih => exact ih tidy trivial traced nofun stored
  | @enter index s t visits block entry found known _ ih =>
    have entered : (s.atBlock index entry.2).frame.Traced blocks name S :=
      ⟨fun other hother => traced.pending other (List.mem_of_mem_filter hother), traced.final⟩
    refine ih (tidy.atBlock known) rfl entered ?_ stored
    rintro place ⟨⟩ returns
    have hindex : entry.1 = index := by simpa using List.find?_some known
    exact traced.pending entry (List.mem_of_find?_eq_some known) block (hindex ▸ found)
      (hindex ▸ returns)
  | @next index s t u visits instruction rest performed flow _ ih =>
    have lined := tidy.atLine instruction.line
    have effect := perform_effect lined.module performed
    simp only [List.forall_mem_cons] at stored
    have before : (s.atLine instruction.line).frame.Traced blocks name S :=
      ⟨traced.pending, traced.final⟩
    refine ih (lined.of_effect effect) (effect.block.trans standing) ?_ ?_ stored.2
    · exact before.of_effect lined effect standing (here _ rfl)
    · exact Point.traced_behind lined performed flow (here _ rfl) stored.1
  | @stop index s t u visits instruction rest performed flow _ ih =>
    have lined := tidy.atLine instruction.line
    have effect := perform_effect lined.module performed
    simp only [List.forall_mem_cons] at stored
    have before : (s.atLine instruction.line).frame.Traced blocks name S :=
      ⟨traced.pending, traced.final⟩
    refine ih (lined.of_effect effect) trivial ?_ nofun stored.2
    exact before.of_effect lined effect standing (here _ rfl)
  | @fall index s t u visits within jumped _ ih =>
    have leads := enter_leads rfl (jump_eq_ok.mp jumped)
    refine ih (tidy.of_leads leads) trivial ?_ nofun stored
    refine traced.of_leads tidy leads fun _ block found returns => here _ rfl ?_
    exact returns.along (.fall found)
  | last _ _ ih => exact ih tidy trivial traced nofun stored

end Traced

/-! ## Final locals hold what is stored -/

/-- A table entry holds at least every value of a variable. -/
def Holding (v : Variable) (entry : Option Variable) : Prop := ∃ u, entry = some u ∧ u.Includes v

section Owed

variable {v : Variable} {blocks : List Block} {name : String} {here there : Frame} {op : Opcode}
  {first index target : Nat} {x y : Option Variable}

theorem Holding.mergeEntries_left (h : Holding v x) : Holding v (mergeEntries x y) := by
  obtain ⟨u, rfl, includes⟩ := h
  cases y with
  | none => exact ⟨u, rfl, includes⟩
  | some w => exact ⟨u.mergeWith w, rfl, (u.includes_mergeWith_left w).trans includes⟩

theorem Holding.mergeEntries_right (h : Holding v y) : Holding v (mergeEntries x y) := by
  obtain ⟨w, rfl, includes⟩ := h
  cases x with
  | none => exact ⟨w, rfl, includes⟩
  | some u => exact ⟨u.mergeWith w, rfl, (u.includes_mergeWith_right w).trans includes⟩

/-- A state that binds a name to a variable that holds the values of another one. -/
def BlockState.Holds (name : String) (v : Variable) (state : BlockState) : Prop :=
  Holding v (state.locals.get? name)

/-- What is known of the values of a variable outside the locals of a frame: they have been brought
to a return, or to the entry of a later block from which a return can be reached. -/
def Frame.Owes (blocks : List Block) (name : String) (v : Variable) (first : Nat) (frame : Frame) :
    Prop :=
  Holding v (frame.finalLocals.get? name) ∨ ∃ target block, first ≤ target ∧
    blocks[target]? = some block ∧ Place.Returns blocks (·.Leaves name) ⟨target, block⟩ ∧
    Entered frame.pending target (BlockState.Holds name v)

namespace Frame.Owes

theorem of_beside (beside : here.Beside there) (h : here.Owes blocks name v first) :
    there.Owes blocks name v first := by
  unfold Frame.Owes
  rw [beside.final, beside.pending]
  exact h

/-- Edges only add to what is owed. -/
theorem of_leads (h : here.Owes blocks name v first) (tidy : here.Tidy)
    (leads : FrameStep.Leads target here there) : there.Owes blocks name v first := by
  cases leads with
  | forward _ locals added beside =>
    refine of_beside beside (h.imp_right ?_)
    rintro ⟨later, block, hle, found, returns, entered⟩
    refine ⟨later, block, hle, found, returns, entered.addPending (fun known merged hk hm => ?_) added⟩
    unfold BlockState.Holds
    rw [locals_merge hm, get?_mergeLocals (locals ▸ tidy.locals)]
    exact Holding.mergeEntries_left hk
  | back _ beside => exact of_beside beside h

/-- An edge that leads forward owes what it brings along to its target. -/
theorem leads (tidy : here.Tidy) (leads : FrameStep.Leads target here there)
    (forward : here.block < target) {block : Block} (found : blocks[target]? = some block)
    (returns : Place.Returns blocks (·.Leaves name) ⟨target, block⟩)
    (holds : Holding v (here.state.locals.get? name)) (hle : first ≤ target) :
    there.Owes blocks name v first := by
  cases leads with
  | forward _ locals added beside =>
    refine of_beside beside (.inr ⟨target, block, hle, found, returns, ?_⟩)
    refine Entered.of_addPending (by unfold BlockState.Holds; rwa [locals]) ?_ added
    intro entry _ merged hm
    unfold BlockState.Holds
    rw [locals_merge hm, get?_mergeLocals (locals ▸ tidy.locals), locals]
    exact holds.mergeEntries_right
  | back back _ => omega

theorem of_effect (h : here.Owes blocks name v first) (tidy : here.Tidy)
    (effect : here.Effect op there) : there.Owes blocks name v first := by
  cases effect with
  | stores _ _ beside => exact of_beside beside h
  | deletes _ beside => exact of_beside beside h
  | leads _ leads => exact h.of_leads tidy leads
  | returns beside =>
    refine of_beside beside (h.imp_left fun hfinal => ?_)
    rw [addFinalLocals, get?_mergeLocals tidy.locals]
    exact hfinal.mergeEntries_left
  | stays _ _ _ _ beside => exact of_beside beside h

/-- Behind an instruction from which a return can be reached, what a name was bound to is still
bound there, or owed elsewhere. -/
theorem of_returns {instruction : Instruction} {rest : List Instruction} (tidy : here.Tidy)
    (standing : here.block = index) (effect : here.Effect instruction.opcode there)
    (returns : Place.Returns blocks (·.Leaves name) ⟨index, instruction :: rest⟩)
    (holds : Holding v (here.state.locals.get? name)) :
    there.Owes blocks name v (index + 1) ∨ flowAfter instruction.opcode = .next ∧
      Place.Returns blocks (·.Leaves name) ⟨index, rest⟩ ∧
      Holding v (there.state.locals.get? name) := by
  -- the path is over at this instruction, or goes on behind it, or along its jump
  rcases Place.returns_iff.mp returns with ⟨_, _, hrest, hop⟩ | ⟨next, edge, more⟩
  · cases hrest
    rw [hop] at effect
    cases effect with
    | returns beside =>
      refine .inl (of_beside beside (.inl ?_))
      rw [addFinalLocals, get?_mergeLocals tidy.locals]
      exact holds.mergeEntries_right
    | stores stores => cases stores
    | deletes deletes => cases deletes
    | leads jumps => cases jumps
    | stays _ _ _ returns => exact absurd rfl returns
  · cases edge with
    | next flow passed => exact .inr ⟨flow, more, by rwa [effect.get?_locals passed]⟩
    | leap jumps forward found =>
      refine .inl ?_
      generalize hop : instruction.opcode = op at effect jumps
      cases effect with
      | leads jumps' led =>
        obtain rfl := Option.some.inj (jumps'.symm.trans jumps)
        exact leads tidy led (standing ▸ forward) found more holds forward
      | stores stores => exact absurd stores (Opcode.leaves_of_jumpTarget jumps).1
      | deletes deletes => exact absurd deletes (Opcode.leaves_of_jumpTarget jumps).2
      | returns => cases jumps
      | stays _ _ none => cases none.symm.trans jumps

end Frame.Owes

/-- What is owed where a point of a run is reached, or still bound there. -/
def Point.Owes (blocks : List Block) (name : String) (v : Variable) : Point → Frame → Prop
  | .inside place, frame => frame.Owes blocks name v (place.block + 1) ∨
      place.Returns blocks (·.Leaves name) ∧ Holding v (frame.state.locals.get? name)
  | .before index, frame => frame.Owes blocks name v index

/-- What is owed is brought to a return in the end. -/
theorem Course.final_owed {ev : Evaluator} {point : Point} {s t : Execution} {visits : List Visit}
    (course : Course ev blocks point s visits t) (tidy : s.frame.Tidy)
    (standing : point.Standing s.frame) (owes : point.Owes blocks name v s.frame) :
    Holding v (t.frame.finalLocals.get? name) := by
  induction course with
  | @done index s past =>
    rcases owes with hfinal | ⟨target, block, hle, found, -, -⟩
    · exact hfinal
    · obtain ⟨hlt, -⟩ := List.getElem?_eq_some_iff.mp found
      omega
  | @skip index s t visits _ missing _ ih =>
    -- a block that is owed anything has an entry state, so it is not one that is skipped
    refine ih tidy trivial (owes.imp_right ?_)
    rintro ⟨target, block, hle, found, returns, entered⟩
    refine ⟨target, block, ?_, found, returns, entered⟩
    by_contra hlt
    obtain rfl : target = index := by omega
    obtain ⟨known, hknown, -⟩ := entered
    cases missing.symm.trans hknown
  | @enter index s t visits block entry found known _ ih =>
    refine ih (tidy.atBlock known) rfl ?_
    rcases owes with hfinal | ⟨target, other, hle, found', returns, entered⟩
    · exact .inl (.inl hfinal)
    -- what is owed to this block is bound in its locals from here on
    · by_cases heq : target = index
      · subst heq
        obtain rfl := Option.some.inj (found'.symm.trans found)
        obtain ⟨state, hstate, holds⟩ := entered
        obtain rfl := Option.some.inj (hstate.symm.trans known)
        exact .inr ⟨returns, holds⟩
      · refine .inl (.inr ⟨target, other, ?_, found', returns, entered.filter heq⟩)
        change index + 1 ≤ target
        omega
  | @next index s t u visits instruction rest performed flow _ ih =>
    have lined := tidy.atLine instruction.line
    have effect := perform_effect lined.module performed
    refine ih (lined.of_effect effect) (effect.block.trans standing) ?_
    rcases owes with owed | ⟨returns, holds⟩
    · have before : (s.atLine instruction.line).frame.Owes blocks name v (index + 1) := owed
      exact .inl (before.of_effect lined effect)
    · exact (Frame.Owes.of_returns lined standing effect returns holds).imp_right And.right
  | @stop index s t u visits instruction rest performed flow _ ih =>
    have lined := tidy.atLine instruction.line
    have effect := perform_effect lined.module performed
    refine ih (lined.of_effect effect) trivial ?_
    rcases owes with owed | ⟨returns, holds⟩
    · have before : (s.atLine instruction.line).frame.Owes blocks name v (index + 1) := owed
      exact before.of_effect lined effect
    · refine (Frame.Owes.of_returns lined standing effect returns holds).resolve_right ?_
      rintro ⟨next, -⟩
      cases next.symm.trans flow
  | @fall index s t u visits within jumped _ ih =>
    have led := enter_leads rfl (jump_eq_ok.mp jumped)
    have hblock : s.frame.block = index := standing
    refine ih (tidy.of_leads led) trivial ?_
    rcases owes with owed | ⟨returns, holds⟩
    · exact Frame.Owes.of_leads owed tidy led
    · rcases Place.returns_iff.mp returns with ⟨_, _, hrest, -⟩ | ⟨next, edge, more⟩
      · cases hrest
      · cases edge with
        | fall found => exact Frame.Owes.leads tidy led (by omega) found more holds (Nat.le_refl _)
  | @last index s t visits past _ ih =>
    refine ih tidy trivial ?_
    rcases owes with owed | ⟨returns, -⟩
    · exact owed
    · rcases Place.returns_iff.mp returns with ⟨_, _, hrest, -⟩ | ⟨next, edge, -⟩
      · cases hrest
      · cases edge with
        | fall found =>
          obtain ⟨hlt, -⟩ := List.getElem?_eq_some_iff.mp found
          omega

/-- Final locals hold everything that a store brings to a return. -/
theorem Course.final_includes {ev : Evaluator} {point : Point} {s t : Execution}
    {visits : List Visit} (course : Course ev blocks point s visits t) (tidy : s.frame.Tidy)
    (standing : point.Standing s.frame) {visit : Visit} (hvisit : visit ∈ visits)
    (stores : visit.Stores name v) (returns : visit.behind.Returns blocks (·.Leaves name)) :
    Holding v (t.frame.finalLocals.get? name) := by
  induction course with
  | done => cases hvisit
  | skip _ _ _ ih => exact ih tidy trivial hvisit
  | enter _ known _ ih => exact ih (tidy.atBlock known) rfl hvisit
  | @next index s t u visits instruction rest performed flow more ih =>
    have lined := tidy.atLine instruction.line
    have effect := perform_effect lined.module performed
    have standing' : (Point.inside ⟨index, rest⟩).Standing u.frame := effect.block.trans standing
    rcases List.mem_cons.mp hvisit with rfl | hvisit
    · refine more.final_owed (lined.of_effect effect) standing' (.inr ⟨returns, ?_⟩)
      obtain ⟨hop, top⟩ := stores.top
      obtain ⟨w, below, hs, rfl⟩ := (perform_stores lined.module hop).mp performed
      obtain rfl : w = v := by simpa [hs] using top
      exact ⟨w, NameMap.get?_insert_self .., .refl w⟩
    · exact ih (lined.of_effect effect) standing' hvisit
  | @stop index s t u visits instruction rest performed flow more ih =>
    have lined := tidy.atLine instruction.line
    have effect := perform_effect lined.module performed
    rcases List.mem_cons.mp hvisit with rfl | hvisit
    · obtain ⟨hop, -⟩ := stores.top
      cases (Opcode.flow_of_storedName hop).symm.trans flow
    · exact ih (lined.of_effect effect) trivial hvisit
  | fall _ jumped _ ih =>
    exact ih (tidy.of_leads (enter_leads rfl (jump_eq_ok.mp jumped))) trivial hvisit
  | last _ _ ih => exact ih tidy trivial hvisit

end Owed

end StubInference
