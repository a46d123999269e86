import StubInference.Proofs.Renaming.Handles
import StubInference.Proofs.Run.Layers

/-!
# Steps from sound states

A state is sound where it names only objects that it holds and every class links to older ones only. A
step that goes the same way on matching states leads from sound states to states that name only what
they hold, and so does what it answers. That classes link to older ones is a matter of when they are
built: what a new class links to was known when it was asked for.

All this is shown of two steps at once, of which the second does the same as the first wherever the
state is sound. It may look at the state on the way, for one.

## Main definitions

* `Realm` — a kind of states that hold a heap
* `Heap.Holds` — a heap holds everything that some data names
* `Realm.Good` — sound states that have grown from a heap
* `Realm.Shadows` — a step does what another one does, and keeps classes in layers

## Main results

* `Realm.Good.run` — a step from a sound state leads to one, and knows what it answers
* `Realm.Shadows.bind`, `Realm.Shadows.mapM` — sequences of steps
-/

namespace StubInference

open Step

/-! ## Kinds of states -/

/-- A kind of states that hold a heap. -/
structure Realm (σ : Type) where
  world : Renaming → World σ
  heap : σ → Heap
  grows : ∀ {E s t}, (world E).Grows s t → (heap s).Grows (heap t)
  admits : ∀ {E s}, E.Fixes (heap s) → (world E).Admits s

/-- A heap holds everything that some data names: no renaming moves it which leaves in place what the
heap holds. -/
def Heap.Holds {α : Type} (heap : Heap) (e : Renaming → α → α) (a : α) : Prop :=
  ∀ E : Renaming, E.Fixes heap → e E a = a

theorem Heap.Holds.mono {α : Type} {heap heap' : Heap} {e : Renaming → α → α} {a : α}
    (h : heap.Holds e a) (hle : heap.SizeLE heap') : heap'.Holds e a :=
  fun E fixes => h E (fixes.mono hle)

/-- Named variables in the other heap. -/
abbrev Renaming.locals (E : Renaming) (names : NameMap Variable) : NameMap Variable :=
  names.mapValues (Variable.rename E)

/-- Named values in the other heap. -/
abbrev Renaming.members (E : Renaming) (names : NameMap Value) : NameMap Value :=
  names.mapValues (Value.rename E)

namespace Realm

variable {σ α β γ : Type} (R : Realm σ)

/-- A state that has grown from a heap, that names only what it holds, and all of whose classes link
to older ones. -/
structure Good (base : Heap) (s : σ) : Prop where
  base : base.SizeLE (R.heap s)
  large : Builtins.heap.SizeLE (R.heap s)
  named : ∀ E : Renaming, E.Fixes (R.heap s) → (R.world E).Matches s s
  layered : (R.heap s).Layered

/-- A step goes the same way on states that match a state along renamings which leave alone what the
state holds. -/
def Mirrors (s : σ) (m : ExceptT Fault (StateM σ) α) (e : Renaming → α → α) : Prop :=
  ∀ E : Renaming, E.Fixes (R.heap s) → Step.Mirrors (R.world E) s m m (e E)

/-- From a state on, the second step does what the first does, and classes link to older ones in the
end. -/
structure Shadows (s : σ) (m n : ExceptT Fault (StateM σ) α) : Prop where
  same : n s = m s
  layered : (R.heap (m s).2).Layered

variable {R} {s : σ} {base : Heap} {m n : ExceptT Fault (StateM σ) α}

theorem Good.rebase (good : R.Good base s) : R.Good (R.heap s) s :=
  ⟨.refl _, good.large, good.named, good.layered⟩

/-- A step from a sound state leads to one, and knows what it answers. -/
theorem Good.run {e : Renaming → α → α} (good : R.Good base s) (mirrors : R.Mirrors s m e)
    (layered : (R.heap (m s).2).Layered) :
    R.Good base (m s).2 ∧ (R.heap s).SizeLE (R.heap (m s).2) ∧
      ∀ a, (m s).1 = .ok a → (R.heap (m s).2).Holds e a := by
  have le : (R.heap s).SizeLE (R.heap (m s).2) :=
    (R.grows (mirrors _ (Renaming.fixes_apart (R.heap s) good.large)).grows).sizeLE
  have follows (E : Renaming) (fixes : E.Fixes (R.heap (m s).2)) :
      (R.world E).Matches (m s).2 (m s).2 ∧ (m s).1 = (m s).1.map (e E) :=
    have before := fixes.mono le
    (mirrors E before).follows s (good.named E before) (R.admits fixes)
  refine ⟨⟨good.base.trans le, good.large.trans le, fun E fixes => (follows E fixes).1, layered⟩, le,
    fun a ha E fixes => ?_⟩
  have same := (follows E fixes).2
  rw [ha] at same
  exact (Except.ok.inj same).symm

/-- What a step becomes under a renaming is the step itself, where it is given what is known. -/
theorem Mirrors.of_eq {e : Renaming → α → α} {m' : Renaming → ExceptT Fault (StateM σ) α}
    (h : ∀ E : Renaming, E.Fixes (R.heap s) → Step.Mirrors (R.world E) s m (m' E) (e E))
    (same : ∀ E : Renaming, E.Fixes (R.heap s) → m' E = m) : R.Mirrors s m e := fun E fixes => by
  have mirrored := h E fixes
  rwa [same E fixes] at mirrored

/-- Each of several steps gets what is known. -/
theorem Mirrors.mapM {step : γ → ExceptT Fault (StateM σ) β} {c : Renaming → γ → γ}
    {r : Renaming → β → β} (items : List γ)
    (mirrors : ∀ E : Renaming, E.Fixes (R.heap s) → ∀ t item,
      Step.Mirrors (R.world E) t (step item) (step (c E item)) (r E))
    (known : ∀ item ∈ items, (R.heap s).Holds c item) :
    R.Mirrors s (items.mapM step) fun E => List.map (r E) :=
  .of_eq (fun E fixes => .mapM items fun t item _ => mirrors E fixes t item) fun E fixes => by
    rw [map_eq_self.mpr fun item hitem => known item hitem E fixes]

theorem Mirrors.foldlM {step : β → γ → ExceptT Fault (StateM σ) β} {c : Renaming → γ → γ}
    (items : List γ) (start : β)
    (mirrors : ∀ E : Renaming, E.Fixes (R.heap s) → ∀ t b item,
      Step.Mirrors (R.world E) t (step b item) (step b (c E item)) id)
    (known : ∀ item ∈ items, (R.heap s).Holds c item) :
    R.Mirrors s (items.foldlM step start) fun _ => id :=
  .of_eq (fun E fixes => .foldlM (r := id) items start fun t b item _ => mirrors E fixes t b item)
    fun E fixes => by
      rw [map_eq_self.mpr fun item hitem => known item hitem E fixes]
      rfl

namespace Shadows

variable {f g : α → ExceptT Fault (StateM σ) β} {e : Renaming → α → α}

/-- A step shadows itself where it adds no class. -/
theorem of_size (good : R.Good base s) (mirrors : R.Mirrors s m e)
    (size : (R.heap (m s).2).classes.size = (R.heap s).classes.size) : R.Shadows s m m :=
  ⟨rfl, good.layered.of_grows
    (R.grows (mirrors _ (Renaming.fixes_apart (R.heap s) good.large)).grows) size⟩

theorem of_heap (good : R.Good base s) (heap : R.heap (m s).2 = R.heap s) : R.Shadows s m m :=
  ⟨rfl, heap ▸ good.layered⟩

theorem pure (good : R.Good base s) (a : α) : R.Shadows s (Pure.pure a) (Pure.pure a) :=
  of_heap good rfl

theorem throw (good : R.Good base s) (fault : Fault) :
    R.Shadows s (throw fault : ExceptT Fault (StateM σ) α) (throw fault) := of_heap good rfl

theorem bind (good : R.Good base s) (mirrors : R.Mirrors s m e) (first : R.Shadows s m n)
    (second : ∀ a t, m s = (.ok a, t) → R.Good base t → (R.heap s).SizeLE (R.heap t) →
      (R.heap t).Holds e a → R.Shadows t (f a) (g a)) : R.Shadows s (m >>= f) (n >>= g) := by
  obtain ⟨good', le, known⟩ := good.run mirrors first.layered
  have same := first.same
  rcases hm : m s with ⟨fault | a, t⟩
  · rw [hm] at same
    constructor
    · rw [bind_apply, bind_apply, same, hm]
    · rw [bind_apply, hm]
      simpa [hm] using first.layered
  · rw [hm] at same good' le known
    have rest := second a t hm good' le (known a rfl)
    constructor
    · rw [bind_apply, bind_apply, same, hm]
      exact rest.same
    · rw [bind_apply, hm]
      exact rest.layered

/-- A step that only reads. -/
theorem read {a : α} (now : m s = (.ok a, s)) (rest : R.Shadows s (f a) (g a)) :
    R.Shadows s (m >>= f) (m >>= g) := by
  constructor
  · rw [bind_apply, bind_apply, now]
    exact rest.same
  · rw [bind_apply, now]
    exact rest.layered

theorem ite {c : Prop} [Decidable c] {m' n' : ExceptT Fault (StateM σ) α}
    (hpos : c → R.Shadows s m n) (hneg : ¬ c → R.Shadows s m' n') :
    R.Shadows s (if c then m else m') (if c then n else n') := by
  by_cases h : c
  · simpa [h] using hpos h
  · simpa [h] using hneg h

theorem ofExcept (good : R.Good base s) {result : Except Fault α}
    (rest : ∀ a, result = .ok a → R.Shadows s (f a) (g a)) :
    R.Shadows s (MonadExcept.ofExcept result >>= f) (MonadExcept.ofExcept result >>= g) := by
  cases result with
  | error fault =>
    exact ⟨rfl, good.layered⟩
  | ok a => exact read rfl (rest a rfl)

/-- The last step of a sequence only makes something of the answer. -/
theorem answer (good : R.Good base s) (mirrors : R.Mirrors s m e) (first : R.Shadows s m n)
    (k : α → β) : R.Shadows s (m >>= fun a => Pure.pure (k a)) (n >>= fun a => Pure.pure (k a)) :=
  bind good mirrors first fun _ _ _ good' _ _ => pure good' _

/-! ### Lists of steps -/

/-- What is known stays known while the others run. -/
theorem mapM {step step' : γ → ExceptT Fault (StateM σ) β} {c : Renaming → γ → γ}
    {r : Renaming → β → β} (items : List γ) (good : R.Good base s)
    (mirrors : ∀ E : Renaming, E.Fixes base → ∀ t item,
      Step.Mirrors (R.world E) t (step item) (step (c E item)) (r E))
    (known : ∀ item ∈ items, (R.heap s).Holds c item)
    (h : ∀ t item, R.Good base t → (R.heap t).Holds c item → R.Shadows t (step item) (step' item)) :
    R.Shadows s (items.mapM step) (items.mapM step') := by
  induction items generalizing s with
  | nil => exact pure good _
  | cons item rest ih =>
    simp only [List.forall_mem_cons] at known
    rw [List.mapM_cons, List.mapM_cons]
    have first : R.Mirrors s (step item) r :=
      .of_eq (fun E fixes => mirrors E (fixes.mono good.base) s item) fun E fixes => by
        rw [known.1 E fixes]
    refine bind good first (h s item good known.1) fun b t _ good' le _ => ?_
    have later : ∀ item ∈ rest, (R.heap t).Holds c item := fun item hitem =>
      (known.2 item hitem).mono le
    have settled := Mirrors.mapM rest (fun E fixes => mirrors E (fixes.mono good'.base)) later
    exact answer good' settled (ih good' later) _

theorem foldlM {step step' : β → γ → ExceptT Fault (StateM σ) β} {c : Renaming → γ → γ}
    (items : List γ) (start : β) (good : R.Good base s)
    (mirrors : ∀ E : Renaming, E.Fixes base → ∀ t b item,
      Step.Mirrors (R.world E) t (step b item) (step b (c E item)) id)
    (known : ∀ item ∈ items, (R.heap s).Holds c item)
    (h : ∀ t b item, R.Good base t → item ∈ items → (R.heap t).Holds c item →
      R.Shadows t (step b item) (step' b item)) :
    R.Shadows s (items.foldlM step start) (items.foldlM step' start) := by
  induction items generalizing s start with
  | nil => exact pure good _
  | cons item rest ih =>
    simp only [List.forall_mem_cons] at known
    rw [List.foldlM_cons, List.foldlM_cons]
    have first : R.Mirrors s (step start item) fun _ => id :=
      .of_eq (fun E fixes => mirrors E (fixes.mono good.base) s start item) fun E fixes => by
        rw [known.1 E fixes]
    refine bind good first (h s start item good (List.mem_cons_self ..) known.1)
      fun b t _ good' le _ => ?_
    exact ih b good' (fun item hitem => (known.2 item hitem).mono le)
      fun t b item good hitem => h t b item good (List.mem_cons_of_mem _ hitem)

end Shadows

end Realm

end StubInference
