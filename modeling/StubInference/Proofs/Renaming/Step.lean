import StubInference.Proofs.Frame.Steps
import StubInference.Proofs.Renaming.Attribute
import StubInference.Proofs.Run.Growth

/-!
# Steps on matching states

A step mirrors another one when it does on every matching state what the other does on its own: the
states still match, and the answers are the same up to the renaming. Both states may grow on the way,
as long as the renaming expects the new objects.

## Main definitions

* `World` — states that grow and may match
* `Step.Mirrors` — a step does on matching states what another one does
* `Renaming.contexts`, `Renaming.executions` — states of the analysis, and frames on top of them

## Main results

* `Step.Mirrors.bind`, `Step.Mirrors.read`, `Step.Mirrors.mapM` — sequences of steps
-/

namespace StubInference

/-! ## Worlds -/

/-- States that grow, and states that match. A state is admitted where the renaming expects the
objects that are new in it. -/
structure World (σ : Type) where
  Grows : σ → σ → Prop
  refl : ∀ s, Grows s s
  trans : ∀ {s t u}, Grows s t → Grows t u → Grows s u
  Matches : σ → σ → Prop
  Admits : σ → Prop
  admits_of_grows : ∀ {s t}, Grows s t → Admits t → Admits s

namespace Step

variable {σ α β γ δ : Type} {W : World σ} {s : σ}

/-- From a state on, a step does what another one does from every state that matches, and what the
other answers is what the first does, translated. -/
structure Mirrors (W : World σ) (s : σ) (m : ExceptT Fault (StateM σ) α)
    (n : ExceptT Fault (StateM σ) β) (e : α → β) : Prop where
  grows : W.Grows s (m s).2
  follows : ∀ t, W.Matches s t → W.Admits (m s).2 →
    W.Matches (m s).2 (n t).2 ∧ (n t).1 = (m s).1.map e

namespace Mirrors

variable {m : ExceptT Fault (StateM σ) α} {n : ExceptT Fault (StateM σ) β} {e : α → β}
  {f : α → ExceptT Fault (StateM σ) γ} {g : β → ExceptT Fault (StateM σ) δ} {r : γ → δ}

theorem pure {a : α} {b : β} (h : b = e a) : Mirrors W s (Pure.pure a) (Pure.pure b) e where
  grows := W.refl s
  follows _ ht _ := ⟨ht, congrArg Except.ok h⟩

theorem throw (fault : Fault) : Mirrors W s (throw fault : ExceptT Fault (StateM σ) α)
    (throw fault : ExceptT Fault (StateM σ) β) e where
  grows := W.refl s
  follows _ ht _ := ⟨ht, rfl⟩

theorem bind (first : Mirrors W s m n e)
    (second : ∀ a t, m s = (.ok a, t) → Mirrors W t (f a) (g (e a)) r) :
    Mirrors W s (m >>= f) (n >>= g) r := by
  obtain ⟨grows, follows⟩ := first
  rcases hm : m s with ⟨fault | a, u⟩
  · have hf : (m >>= f) s = (.error fault, u) := by rw [bind_apply, hm]
    rw [hm] at grows follows
    refine ⟨hf ▸ grows, fun t ht admits => ?_⟩
    rw [hf] at admits ⊢
    obtain ⟨matched, answer⟩ := follows t ht admits
    rw [bind_apply]
    rcases hn : n t with ⟨fault' | b, v⟩ <;> rw [hn] at matched answer <;> cases answer
    exact ⟨matched, rfl⟩
  · obtain ⟨grows', follows'⟩ := second a u hm
    have hf : (m >>= f) s = f a u := by rw [bind_apply, hm]
    rw [hm] at grows follows
    refine ⟨hf ▸ W.trans grows grows', fun t ht admits => ?_⟩
    rw [hf] at admits ⊢
    obtain ⟨matched, answer⟩ := follows t ht (W.admits_of_grows grows' admits)
    rw [bind_apply]
    rcases hn : n t with ⟨fault' | b, v⟩ <;> rw [hn] at matched answer <;> cases answer
    exact follows' v matched admits

/-- A step that reads the state goes on in one way on all states that match. -/
theorem read {f : σ → ExceptT Fault (StateM σ) γ} {g : σ → ExceptT Fault (StateM σ) δ}
    {next : ExceptT Fault (StateM σ) δ} (same : ∀ t, W.Matches s t → g t = next)
    (goesOn : Mirrors W s (f s) next r) : Mirrors W s (get >>= f) (get >>= g) r where
  grows := goesOn.grows
  follows t ht admits := by
    have hg : (get >>= g) t = next t := congrFun (same t ht) t
    rw [hg]
    exact goesOn.follows t ht admits

theorem modify {change change' : σ → σ} (grows : W.Grows s (change s))
    (matched : ∀ t, W.Matches s t → W.Admits (change s) → W.Matches (change s) (change' t)) :
    Mirrors W s (modify change : ExceptT Fault (StateM σ) Unit) (modify change') id where
  grows := grows
  follows t ht admits := ⟨matched t ht admits, rfl⟩

theorem ofExcept {result : Except Fault α} {result' : Except Fault β} (h : result' = result.map e) :
    Mirrors W s (MonadExcept.ofExcept result : ExceptT Fault (StateM σ) α)
      (MonadExcept.ofExcept result') e := by
  subst h
  cases result with
  | error fault => exact throw fault
  | ok a => exact pure rfl

theorem ite {c c' : Prop} [Decidable c] [Decidable c'] {m' : ExceptT Fault (StateM σ) α}
    {n' : ExceptT Fault (StateM σ) β} (same : c' ↔ c) (pos : c → Mirrors W s m n e)
    (neg : ¬ c → Mirrors W s m' n' e) :
    Mirrors W s (if c then m else m') (if c' then n else n') e := by
  by_cases h : c
  · simpa [h, same] using pos h
  · simpa [h, same] using neg h

/-- The answer of a step, translated on. -/
theorem map (h : Mirrors W s m n e) {k : α → γ} {k' : β → δ} (hk : ∀ a, k' (e a) = r (k a)) :
    Mirrors W s (k <$> m) (k' <$> n) r := by
  rw [map_eq_pure_bind, map_eq_pure_bind]
  exact h.bind fun a t _ => pure (hk a)

/-- The same where the step that follows depends on the other state as well. -/
theorem get {f : σ → ExceptT Fault (StateM σ) γ} {g : σ → ExceptT Fault (StateM σ) δ}
    (grows : W.Grows s (f s s).2) (goesOn : ∀ t, W.Matches s t → Mirrors W s (f s) (g t) r) :
    Mirrors W s (get >>= f) (get >>= g) r where
  grows := grows
  follows t ht := (goesOn t ht).follows t ht

/-! ### Lists of steps -/

theorem mapM {step : α → ExceptT Fault (StateM σ) γ} {step' : β → ExceptT Fault (StateM σ) δ}
    (items : List α) (h : ∀ s, ∀ item ∈ items, Mirrors W s (step item) (step' (e item)) r) :
    Mirrors W s (items.mapM step) ((items.map e).mapM step') (List.map r) := by
  induction items generalizing s with
  | nil => exact pure rfl
  | cons item rest ih =>
    rw [List.map_cons, List.mapM_cons, List.mapM_cons]
    refine (h s item (List.mem_cons_self ..)).bind fun a t _ => ?_
    refine (ih fun s item hitem => h s item (List.mem_cons_of_mem _ hitem)).bind fun as u _ => ?_
    exact pure rfl

theorem forM {step : α → ExceptT Fault (StateM σ) Unit} {step' : β → ExceptT Fault (StateM σ) Unit}
    (items : List α) (h : ∀ s item, Mirrors W s (step item) (step' (e item)) id) :
    Mirrors W s (items.forM step) ((items.map e).forM step') id := by
  induction items generalizing s with
  | nil => exact pure rfl
  | cons item rest ih => exact (h s item).bind fun _ t _ => ih

theorem foldlM {step : γ → α → ExceptT Fault (StateM σ) γ}
    {step' : δ → β → ExceptT Fault (StateM σ) δ} (items : List α) (start : γ)
    (h : ∀ s c, ∀ item ∈ items, Mirrors W s (step c item) (step' (r c) (e item)) r) :
    Mirrors W s (items.foldlM step start) ((items.map e).foldlM step' (r start)) r := by
  induction items generalizing s start with
  | nil => exact pure rfl
  | cons item rest ih =>
    rw [List.map_cons, List.foldlM_cons, List.foldlM_cons]
    refine (h s start item (List.mem_cons_self ..)).bind fun c t _ => ?_
    exact ih c fun s c item hitem => h s c item (List.mem_cons_of_mem _ hitem)

end Mirrors

/-! ### Steps that extend a state -/

/-- A step makes the state grow, whatever it ends in. -/
def Extends (W : World σ) (s : σ) (m : ExceptT Fault (StateM σ) α) : Prop := W.Grows s (m s).2

namespace Extends

variable {m : ExceptT Fault (StateM σ) α} {f : α → ExceptT Fault (StateM σ) γ}

theorem pure (a : α) : Extends W s (Pure.pure a) := W.refl s

theorem bind (first : Extends W s m) (second : ∀ a t, Extends W t (f a)) :
    Extends W s (m >>= f) :=
  bind_leads (R := W.Grows) W.trans first second

theorem mapM {step : α → ExceptT Fault (StateM σ) γ} (items : List α)
    (h : ∀ s item, Extends W s (step item)) : Extends W s (items.mapM step) := by
  induction items generalizing s with
  | nil => exact pure []
  | cons item rest ih =>
    rw [List.mapM_cons]
    exact bind (h s item) fun a t => bind ih fun as u => pure _

theorem foldlM {step : γ → α → ExceptT Fault (StateM σ) γ} (items : List α) (start : γ)
    (h : ∀ s c item, Extends W s (step c item)) : Extends W s (items.foldlM step start) := by
  induction items generalizing s start with
  | nil => exact pure start
  | cons item rest ih =>
    rw [List.foldlM_cons]
    exact bind (h s start item) fun c t => ih c

end Extends

end Step

/-! ## States of the analysis -/

/-- The state of an analysis grows with its heap. Its options and the functions that are running
stay. -/
structure Context.Grows (ctx ctx' : Context) : Prop where
  heap : ctx.heap.Grows ctx'.heap
  options : ctx'.options = ctx.options
  callStack : ctx'.callStack = ctx.callStack

/-- Two states with matching heaps, in which the same functions are running under the same options.
What has been found before may differ. -/
structure Context.Matches (E : Renaming) (ctx ctx' : Context) : Prop where
  heap : ctx.heap.Matches E ctx'.heap
  options : ctx'.options = ctx.options
  callStack : ctx'.callStack = ctx.callStack.map E.fn

theorem Renaming.Admits.mono {E : Renaming} {heap heap' : Heap} (h : E.Admits heap')
    (hle : heap.SizeLE heap') : E.Admits heap where
  classes := h.classes.mono hle.classes
  functions := h.functions.mono hle.functions
  instances := h.instances.mono hle.instances
  frames := h.frames.mono hle.frames
  scopes := h.scopes.mono hle.scopes

namespace Context.Grows

variable {ctx ctx' ctx'' : Context}

theorem refl (ctx : Context) : ctx.Grows ctx := ⟨.refl _, rfl, rfl⟩

theorem trans (h : ctx.Grows ctx') (h' : ctx'.Grows ctx'') : ctx.Grows ctx'' :=
  ⟨h.heap.trans h'.heap, h'.options.trans h.options, h'.callStack.trans h.callStack⟩

end Context.Grows

/-- The states of an analysis. -/
def Renaming.contexts (E : Renaming) : World Context where
  Grows := Context.Grows
  refl := .refl
  trans := .trans
  Matches := Context.Matches E
  Admits ctx := E.Admits ctx.heap
  admits_of_grows grows admits := admits.mono grows.heap.sizeLE

namespace Analysis

variable {E : Renaming} {α β : Type} {e : α → β} {ctx : Context}

/-- A change of the heap that leads to matching heaps again. -/
theorem mirrors_withHeap {step : Heap → α × Heap} {step' : Heap → β × Heap}
    (grows : ctx.heap.Grows (step ctx.heap).2)
    (matched : ∀ heap', ctx.heap.Matches E heap' → E.Admits (step ctx.heap).2 →
      (step ctx.heap).2.Matches E (step' heap').2 ∧ (step' heap').1 = e (step ctx.heap).1) :
    Step.Mirrors E.contexts ctx (withHeap step) (withHeap step') e where
  grows := ⟨grows, rfl, rfl⟩
  follows t ht admits := by
    obtain ⟨heap, answer⟩ := matched t.heap ht.heap admits
    exact ⟨⟨heap, ht.options, ht.callStack⟩, congrArg Except.ok answer⟩

theorem mirrors_modifyHeap {change change' : Heap → Heap} (grows : ctx.heap.Grows (change ctx.heap))
    (matched : ∀ heap', ctx.heap.Matches E heap' → (change ctx.heap).Matches E (change' heap')) :
    Step.Mirrors E.contexts ctx (modifyHeap change) (modifyHeap change') id :=
  mirrors_withHeap grows fun heap' h _ => ⟨matched heap' h, rfl⟩

theorem mirrors_fromHeap {read : Heap → α} {read' : Heap → β}
    (h : ∀ heap', ctx.heap.Matches E heap' → read' heap' = e (read ctx.heap)) :
    Step.Mirrors E.contexts ctx (fromHeap read) (fromHeap read') e where
  grows := .refl ctx
  follows t ht _ := ⟨ht, congrArg Except.ok (h t.heap ht.heap)⟩

theorem mirrors_record (kind : FindingKind) :
    Step.Mirrors E.contexts ctx (record kind) (record kind) id :=
  .modify ⟨.refl _, rfl, rfl⟩ fun _ ht _ => ⟨ht.heap, ht.options, ht.callStack⟩

theorem mirrors_recordMisfits (function : String) (errors : List ArgError) :
    Step.Mirrors E.contexts ctx (recordMisfits function errors) (recordMisfits function errors)
      id := by
  have each : Step.Mirrors E.contexts ctx
      (errors.forM fun error => record (.wrongArgCount function error.message))
      ((errors.map id).forM fun error => record (.wrongArgCount function error.message)) id :=
    .forM errors fun s error => mirrors_record _
  rwa [List.map_id] at each

theorem running_eq_ok {id : FunctionId} {m : Analysis α} {a : α} {ctx' : Context}
    (h : running id m ctx = (.ok a, ctx')) : ∃ after,
      m { ctx with callStack := id :: ctx.callStack } = (.ok a, after) ∧
        ctx' = { after with callStack := after.callStack.tail } := by
  unfold running at h
  dsimp only at h
  rcases hm : m { ctx with callStack := id :: ctx.callStack } with ⟨result, after⟩
  rw [hm] at h
  cases h
  exact ⟨after, rfl, rfl⟩

/-- While a step runs a function more is on the call stack, on both sides. -/
theorem mirrors_running (id : FunctionId) {m : Analysis α} {n : Analysis β}
    (h : Step.Mirrors E.contexts { ctx with callStack := id :: ctx.callStack } m n e) :
    Step.Mirrors E.contexts ctx (running id m) (running (E.fn id) n) e where
  grows := ⟨h.grows.heap, h.grows.options, congrArg List.tail h.grows.callStack⟩
  follows t ht admits := by
    obtain ⟨matched, answer⟩ := h.follows { t with callStack := E.fn id :: t.callStack }
      ⟨ht.heap, ht.options, congrArg (E.fn id :: ·) ht.callStack⟩ admits
    refine ⟨⟨matched.heap, matched.options, ?_⟩, answer⟩
    exact (congrArg List.tail matched.callStack).trans List.map_tail.symm

end Analysis

end StubInference
