import Mathlib.Data.Fintype.Card
import Mathlib.Data.Set.Finite.Basic
import Mathlib.Logic.Relation
import StubInference.Proofs.Renaming.Heap
import StubInference.Proofs.Run.Layers
import StubInference.Proofs.Occurrences

/-!
# Method resolution

The method resolution order comes out of a loop over a stack of classes that wait. A class that comes
up is skipped if it was visited before; otherwise it is visited and its bases are put on top. The loop
ends for every heap, even if bases form a cycle, and visits everything that the class inherits from.
Where they form none, its order is the one that the trees of bases are written out in, depth first and
from left to right, with every class where it comes first.

## Main definitions

* `Heap.Extends`, `Heap.Inherits`, `Heap.Acyclic` — bases, and what is reached along them
* `Heap.Visits` — the loop and the order that it ends with
* `Heap.Expands` — trees of bases written out in preorder

## Main results

* `Heap.visits_mro` — the loop ends
* `Heap.Visits.mem_iff`, `Heap.Visits.nodup` — it visits what the pending classes inherit from, once
* `Heap.Expands.visits` — it goes through trees of bases in preorder
* `Heap.Acyclic.exists_expands` — the tree of bases of a class without cycles is finite
* `Heap.mro_linearizes` — the method resolution order
-/

namespace StubInference.Heap

variable {heap : Heap} {cls : ClassId} {order pending result : List ClassId}

/-! ## Bases -/

/-- A class names another one among its bases. -/
def Extends (heap : Heap) (cls base : ClassId) : Prop := base ∈ (heap.classAt cls).bases

/-- A class reaches another one along bases, or is that class. -/
def Inherits (heap : Heap) : ClassId → ClassId → Prop := Relation.ReflTransGen heap.Extends

/-- No class that a class inherits from reaches itself again along bases. -/
def Acyclic (heap : Heap) (cls : ClassId) : Prop :=
  ∀ other, heap.Inherits cls other → ¬ Relation.TransGen heap.Extends other other

/-- Classes that extend older ones only form no cycle. -/
theorem Layered.acyclic (layered : heap.Layered) (cls : ClassId) : heap.Acyclic cls := by
  intro other _ cycle
  have older {c d : ClassId} (h : Relation.TransGen heap.Extends c d) : d.index < c.index := by
    induction h with
    | single h => exact layered.lt (List.mem_append_left _ (List.mem_append_left _ h))
    | tail _ h ih => exact (layered.lt (List.mem_append_left _ (List.mem_append_left _ h))).trans ih
  exact (older cycle).false

/-! ## The loop -/

/-- The loop that visits pending classes, started after the classes of an order have been visited, ends
with another order. -/
inductive Visits (heap : Heap) : (order pending result : List ClassId) → Prop
  | done (order : List ClassId) : Visits heap order [] order
  | skip {order rest result : List ClassId} {next : ClassId} (known : next ∈ order)
      (later : Visits heap order rest result) : Visits heap order (next :: rest) result
  | enter {order rest result : List ClassId} {next : ClassId} (new : next ∉ order)
      (later : Visits heap (order ++ [next]) ((heap.classAt next).bases ++ rest) result) :
      Visits heap order (next :: rest) result

namespace Visits

theorem unique {other : List ClassId} (h : heap.Visits order pending result)
    (h' : heap.Visits order pending other) : result = other := by
  induction h with
  | done order => cases h'; rfl
  | skip known _ ih =>
    cases h' with
    | skip _ later => exact ih later
    | enter new _ => exact absurd known new
  | enter new _ ih =>
    cases h' with
    | skip known _ => exact absurd known new
    | enter _ later => exact ih later

theorem isPrefix (h : heap.Visits order pending result) : order <+: result := by
  induction h with
  | done order => exact List.prefix_rfl
  | skip _ _ ih => exact ih
  | enter _ _ ih => exact (List.prefix_append _ _).trans ih

theorem nodup (h : heap.Visits order pending result) (once : order.Nodup) : result.Nodup := by
  induction h with
  | done order => exact once
  | skip _ _ ih => exact ih once
  | enter new _ ih =>
    refine ih (List.nodup_append.mpr ⟨once, List.nodup_singleton _, fun c hc other here same => ?_⟩)
    rw [same, List.mem_singleton.mp here] at hc
    exact new hc

theorem subset_result (h : heap.Visits order pending result) : pending ⊆ result := by
  induction h with
  | done order => exact List.nil_subset _
  | skip known later ih => exact List.cons_subset.mpr ⟨later.isPrefix.subset known, ih⟩
  | enter _ later ih =>
    exact List.cons_subset.mpr
      ⟨later.isPrefix.subset (by simp), fun c hc => ih (List.mem_append_right _ hc)⟩

/-- Whatever is visited was there before or is inherited by a class that was pending. -/
theorem inherited (h : heap.Visits order pending result) {c : ClassId} (hc : c ∈ result) :
    c ∈ order ∨ ∃ root ∈ pending, heap.Inherits root c := by
  induction h with
  | done order => exact .inl hc
  | skip _ _ ih =>
    exact (ih hc).imp_right fun ⟨root, waits, along⟩ => ⟨root, List.mem_cons_of_mem _ waits, along⟩
  | @enter order rest _ next _ _ ih =>
    rcases ih hc with old | ⟨root, waits, along⟩
    · rcases List.mem_append.mp old with old | old
      · exact .inl old
      · exact .inr ⟨next, by simp, by rw [List.mem_singleton.mp old]; exact .refl⟩
    · rcases List.mem_append.mp waits with base | waits
      · exact .inr ⟨next, by simp, .head base along⟩
      · exact .inr ⟨root, List.mem_cons_of_mem _ waits, along⟩

/-- If the bases of what was visited are visited or pending, in the end they are all visited. -/
theorem closed (h : heap.Visits order pending result)
    (open_ : ∀ c ∈ order, ∀ base, heap.Extends c base → base ∈ order ++ pending) :
    ∀ c ∈ result, ∀ base, heap.Extends c base → base ∈ result := by
  induction h with
  | done order => simpa using open_
  | skip known _ ih =>
    refine ih fun c hc base hb => ?_
    rcases List.mem_append.mp (open_ c hc base hb) with old | waits
    · exact List.mem_append_left _ old
    · rcases List.mem_cons.mp waits with rfl | waits
      · exact List.mem_append_left _ known
      · exact List.mem_append_right _ waits
  | @enter order rest _ next _ _ ih =>
    refine ih fun c hc base hb => ?_
    rcases List.mem_append.mp hc with old | new
    · have := open_ c old base hb
      simp only [List.mem_append, List.mem_cons] at this ⊢
      tauto
    · rw [List.mem_singleton.mp new] at hb
      exact List.mem_append_right _ (List.mem_append_left _ hb)

/-- A loop that starts with nothing visited visits what the pending classes inherit from. -/
theorem mem_iff (h : heap.Visits [] pending result) (c : ClassId) :
    c ∈ result ↔ ∃ root ∈ pending, heap.Inherits root c := by
  constructor
  · intro hc
    exact (h.inherited hc).resolve_left List.not_mem_nil
  · rintro ⟨root, waits, along⟩
    induction along with
    | refl => exact h.subset_result waits
    | tail _ base ih => exact h.closed (by simp) _ ih _ base

end Visits

/-- Fuel for the pending classes and for the bases of all classes that are not visited yet is enough. -/
theorem visits_visit (heap : Heap) {fuel : Nat} {order pending : List ClassId}
    (enough : pending.length + heap.linksOutside ClassInfo.bases order < fuel) :
    heap.Visits order pending (heap.visit fuel order pending) := by
  induction fuel generalizing order pending with
  | zero => omega
  | succ fuel ih =>
    cases pending with
    | nil => exact .done order
    | cons next rest =>
      rw [List.length_cons] at enough
      rw [visit]
      by_cases known : next ∈ order
      · rw [if_pos known]
        exact .skip known (ih (by omega))
      · rw [if_neg known]
        have fewer := heap.linksOutside_append ClassInfo.bases rfl known
        exact .enter known (ih (by rw [List.length_append]; omega))

theorem visits_mro (heap : Heap) (cls : ClassId) : heap.Visits [] [cls] (heap.mro cls) := by
  apply visits_visit
  rw [List.length_singleton, ← foldl_links]
  unfold baseCount
  omega

/-! ## Trees of bases -/

/-- The trees of bases that grow from some classes, written out from left to right: every class stands
in front of the trees of its bases. -/
inductive Expands (heap : Heap) : (roots tree : List ClassId) → Prop
  | nil : Expands heap [] []
  | cons {cls : ClassId} {roots above others : List ClassId}
      (bases : Expands heap (heap.classAt cls).bases above) (rest : Expands heap roots others) :
      Expands heap (cls :: roots) (cls :: (above ++ others))

namespace Expands

variable {roots tree : List ClassId}

theorem single {above : List ClassId} (bases : heap.Expands (heap.classAt cls).bases above) :
    heap.Expands [cls] (cls :: above) := by
  simpa using bases.cons .nil

theorem unique {other : List ClassId} (h : heap.Expands roots tree) (h' : heap.Expands roots other) :
    tree = other := by
  induction h generalizing other with
  | nil => cases h'; rfl
  | cons _ _ ihBases ihRest =>
    cases h' with
    | cons bases rest => rw [ihBases bases, ihRest rest]

theorem mem_iff (h : heap.Expands roots tree) (c : ClassId) :
    c ∈ tree ↔ ∃ root ∈ roots, heap.Inherits root c := by
  induction h with
  | nil => simp
  | @cons cls roots above others _ _ ihBases ihRest =>
    have split : heap.Inherits cls c ↔
        c = cls ∨ ∃ base ∈ (heap.classAt cls).bases, heap.Inherits base c := by
      rw [Inherits, Relation.ReflTransGen.cases_head_iff, eq_comm]
      rfl
    simp only [List.mem_cons, List.mem_append, ihBases, ihRest, exists_eq_or_imp, split, or_assoc]

/-- Every class of a tree stands in front of a smaller tree of its own. -/
theorem exists_smaller (h : heap.Expands roots tree) {c : ClassId} (hc : c ∈ tree) :
    ∃ above, heap.Expands (heap.classAt c).bases above ∧ above.length < tree.length := by
  induction h with
  | nil => cases hc
  | @cons cls roots above others bases _ ihBases ihRest =>
    have longer : (cls :: (above ++ others)).length = above.length + others.length + 1 := by simp
    rw [longer]
    rcases List.mem_cons.mp hc with rfl | hc
    · exact ⟨above, bases, by omega⟩
    · rcases List.mem_append.mp hc with hc | hc
      · obtain ⟨own, grows, less⟩ := ihBases hc
        exact ⟨own, grows, by omega⟩
      · obtain ⟨own, grows, less⟩ := ihRest hc
        exact ⟨own, grows, by omega⟩

/-- No class stands in the tree of its own bases. -/
theorem not_mem_self {above : List ClassId} (h : heap.Expands (heap.classAt cls).bases above) :
    cls ∉ above := by
  intro mem
  obtain ⟨own, grows, less⟩ := h.exists_smaller mem
  rw [h.unique grows] at less
  exact less.false

/-- The loop goes through trees in preorder. A class that was visited before is skipped together with
its tree, so everything that it inherits from has to be visited as well: it is, unless the loop stands
below that class right now. -/
theorem visits {rest : List ClassId} (h : heap.Expands roots tree)
    (settled : ∀ c ∈ order, c ∈ tree → ∀ d, heap.Inherits c d → d ∈ order)
    (later : heap.Visits (gatherBy (· == ·) order tree) rest result) :
    heap.Visits order (roots ++ rest) result := by
  induction h generalizing order rest with
  | nil => exact later
  | @cons cls roots above others bases trees ihBases ihRest =>
    have inherits {d : ClassId} (hd : d ∈ above) : heap.Inherits cls d := by
      obtain ⟨base, hb, along⟩ := (bases.mem_iff d).mp hd
      exact .head hb along
    by_cases known : cls ∈ order
    · -- the tree of this class brings nothing new
      have same : gatherBy (· == ·) order (cls :: (above ++ others)) =
          gatherBy (· == ·) order others := by
        have old : cls :: above ⊆ order := by
          refine List.cons_subset.mpr ⟨known, fun d hd => ?_⟩
          exact settled cls known (by simp) d (inherits hd)
        rw [← List.cons_append, gatherBy_append, gatherBy_of_subset old]
      rw [same] at later
      refine .skip known (ihRest (fun c hc hmem => settled c hc ?_) later)
      simp [hmem]
    · have split : gatherBy (· == ·) order (cls :: (above ++ others)) =
          gatherBy (· == ·) (gatherBy (· == ·) (order ++ [cls]) above) others := by
        have new : ¬ order.any (· == cls) = true := by simpa using known
        rw [gatherBy_cons, if_neg new, gatherBy_append]
      rw [split] at later
      refine .enter known (ihBases ?_ (ihRest ?_ later))
      · -- the class itself is visited and its bases are not, but it is none of them
        intro c hc hmem d along
        rcases List.mem_append.mp hc with old | here
        · exact List.mem_append_left _ (settled c old (by simp [hmem]) d along)
        · rw [List.mem_singleton.mp here] at hmem
          exact absurd hmem bases.not_mem_self
      · intro c hc hmem d along
        rw [mem_gatherBy_beq, List.mem_append, List.mem_singleton] at hc ⊢
        rcases hc with (old | rfl) | within
        · exact .inl (.inl (settled c old (by simp [hmem]) d along))
        · rcases along.cases_head with rfl | ⟨base, hb, along⟩
          · exact .inl (.inr rfl)
          · exact .inr ((bases.mem_iff d).mpr ⟨base, hb, along⟩)
        · obtain ⟨base, hb, before⟩ := (bases.mem_iff c).mp within
          exact .inr ((bases.mem_iff d).mpr ⟨base, hb, before.trans along⟩)

/-- The loop visits the tree of a class, every class where it comes first. -/
theorem visits_eraseDups (h : heap.Expands [cls] tree) : heap.Visits [] [cls] tree.eraseDups := by
  have all : gatherBy (· == ·) [] tree = tree.eraseDups := by
    rw [gatherBy_beq, List.filter_eq_self.mpr (by simp), List.nil_append]
  rw [← all, ← List.append_nil [cls]]
  exact h.visits (by simp) (.done _)

/-- Trees of some classes one by one make up the trees of all. -/
theorem exists_of_forall (trees : ∀ root ∈ roots, ∃ tree, heap.Expands [root] tree) :
    ∃ tree, heap.Expands roots tree := by
  induction roots with
  | nil => exact ⟨[], .nil⟩
  | cons root roots ih =>
    obtain ⟨⟨_, first⟩, others⟩ := List.forall_mem_cons.mp trees
    obtain ⟨_, rest⟩ := ih others
    cases first with
    | cons bases _ => exact ⟨_, .cons bases rest⟩

end Expands

/-- What a class inherits from are finitely many classes, so without a cycle they can be reached by
going up from the class only so often. -/
theorem Acyclic.acc (acyclic : heap.Acyclic cls) : Acc (fun base c => heap.Extends c base) cls := by
  have finite : Finite { c // heap.Inherits cls c } := by
    refine (heap.mro cls).finite_toSet.subset fun c along => ?_
    exact ((heap.visits_mro cls).mem_iff c).mpr ⟨cls, by simp, along⟩
  -- on these classes, being a proper ancestor is a well-founded order
  let Above (base c : { c // heap.Inherits cls c }) : Prop := Relation.TransGen heap.Extends c.1 base.1
  have : IsTrans _ Above := ⟨fun _ _ _ hab hbc => hbc.trans hab⟩
  have : Std.Irrefl Above := ⟨fun c => acyclic c.1 c.2⟩
  have founded : WellFounded Above := Finite.wellFounded_of_trans_of_irrefl Above
  have lift (c : { c // heap.Inherits cls c }) : Acc (fun base c => heap.Extends c base) c.1 := by
    induction c using founded.induction with
    | _ c ih => exact .intro _ fun base h => ih ⟨base, c.2.tail h⟩ (.single h)
  exact lift ⟨cls, .refl⟩

/-- Without a cycle the tree of bases of a class is finite. -/
theorem Acyclic.exists_expands (acyclic : heap.Acyclic cls) : ∃ tree, heap.Expands [cls] tree := by
  induction acyclic.acc with
  | intro cls _ ih =>
    have above : ∃ tree, heap.Expands (heap.classAt cls).bases tree :=
      Expands.exists_of_forall fun base h =>
        ih base h fun other along => acyclic other (.head h along)
    obtain ⟨_, bases⟩ := above
    exact ⟨_, .single bases⟩

/-! ## The order -/

/-- For every heap and class the loop ends. Its order starts with the class and lists all that the class
inherits from, once each. Without a cycle it is the tree of bases in preorder with every class where it
comes first. A member is looked up on the first class in this order that has it. -/
theorem mro_linearizes (heap : Heap) (cls : ClassId) :
    heap.Visits [] [cls] (heap.mro cls) ∧
      (heap.mro cls).head? = some cls ∧ (heap.mro cls).Nodup ∧
      (∀ other, other ∈ heap.mro cls ↔ heap.Inherits cls other) ∧
      (heap.Acyclic cls → ∃ tree, (∀ written, heap.Expands [cls] written ↔ written = tree) ∧
        heap.mro cls = tree.eraseDups) ∧
      ∀ name value, heap.lookup? cls name = some value ↔
        ∃ before definer after, heap.mro cls = before ++ definer :: after ∧
          (heap.classAt definer).members.get? name = some value ∧
          ∀ other ∈ before, (heap.classAt other).members.get? name = none := by
  have visited := heap.visits_mro cls
  refine ⟨visited, ?_, visited.nodup .nil, fun other => ?_, fun acyclic => ?_, fun name value => ?_⟩
  · -- nothing is visited at first, so the class is
    cases visited with
    | skip known _ => cases known
    | enter _ later =>
      obtain ⟨more, same⟩ := later.isPrefix
      rw [← same]
      rfl
  · simpa using visited.mem_iff other
  · obtain ⟨tree, expands⟩ := acyclic.exists_expands
    exact ⟨tree, fun written => ⟨fun h => h.unique expands, fun h => h ▸ expands⟩,
      visited.unique expands.visits_eraseDups⟩
  · rw [lookup?]
    exact List.findSome?_eq_some_iff

/-- A diamond: `class Base: m = 1`, `class Left(Base)`, `class Right(Base): m = 2` and
`class Child(Left, Right)`. -/
def diamond : Heap :=
  let built (name : String) (bases : List ClassId) (members : NameMap Value) : ClassInfo :=
    .built name bases members none ⟨[], [], []⟩
  { empty with classes := #[
      built "Base" [] [("m", .literal (.int 1))],
      built "Left" [⟨0⟩] [],
      built "Right" [⟨0⟩] [("m", .literal (.int 2))],
      built "Child" [⟨1⟩, ⟨2⟩] []] }

/-- The tree of the diamond has the base class twice, and the order has it where it comes first: in
front of the class on the right, so that its member is the one that is found. -/
theorem mro_diamond :
    diamond.Acyclic ⟨3⟩ ∧ diamond.Expands [⟨3⟩] [⟨3⟩, ⟨1⟩, ⟨0⟩, ⟨2⟩, ⟨0⟩] ∧
      diamond.mro ⟨3⟩ = [⟨3⟩, ⟨1⟩, ⟨0⟩, ⟨2⟩] ∧
      diamond.lookup? ⟨3⟩ "m" = some (.literal (.int 1)) := by
  have acyclic : diamond.Acyclic ⟨3⟩ := Layered.acyclic (by decide) _
  have base : diamond.Expands [⟨0⟩] [⟨0⟩] := .single .nil
  have right : diamond.Expands [⟨2⟩] [⟨2⟩, ⟨0⟩] := .single base
  have both : diamond.Expands [⟨1⟩, ⟨2⟩] [⟨1⟩, ⟨0⟩, ⟨2⟩, ⟨0⟩] :=
    @Expands.cons _ ⟨1⟩ [⟨2⟩] [⟨0⟩] [⟨2⟩, ⟨0⟩] base right
  have expands : diamond.Expands [⟨3⟩] [⟨3⟩, ⟨1⟩, ⟨0⟩, ⟨2⟩, ⟨0⟩] := .single both
  obtain ⟨-, -, -, -, preorder, lookup⟩ := mro_linearizes diamond ⟨3⟩
  obtain ⟨tree, written, order⟩ := preorder acyclic
  rw [← (written _).mp expands] at order
  refine ⟨acyclic, expands, order, (lookup "m" _).mpr ⟨[⟨3⟩, ⟨1⟩], ⟨0⟩, [⟨2⟩], order, rfl, ?_⟩⟩
  simp [diamond, classAt, ClassInfo.built]

end StubInference.Heap
