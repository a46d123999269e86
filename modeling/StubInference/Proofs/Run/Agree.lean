import StubInference.Frame.Monad
import StubInference.Proofs.Frame.Steps

/-!
# Agreement of steps

What is shown about the whole analysis is shown about two evaluators at once: under an invariant
the steps built on the one do the same as those built on the other, they keep the invariant, and
what they answer has a given property. With the same evaluator on both sides this says that a step
keeps the invariant.

## Main definitions

* `Step.Agree` — two steps do the same, keep an invariant and answer something with a property

## Main results

* `Step.Agree.bind`, `Step.Agree.mapM` — sequences of steps
* `FrameStep.agree_analysis` — steps of the analysis inside a frame
-/

namespace StubInference

namespace Step

variable {σ α β : Type} {I : σ → Prop}

/-- Two steps that do the same wherever an invariant holds. They keep the invariant, even where
they end in a fault, and what they answer has the property. -/
def Agree (I : σ → Prop) (m n : ExceptT Fault (StateM σ) α) (Q : α → Prop) : Prop :=
  ∀ s, I s → m s = n s ∧ I (n s).2 ∧ ∀ a, (n s).1 = .ok a → Q a

namespace Agree

variable {m n : ExceptT Fault (StateM σ) α} {f g : α → ExceptT Fault (StateM σ) β}
  {Q Q' : α → Prop} {R : β → Prop}

theorem pure {a : α} (h : Q a) : Agree I (Pure.pure a) (Pure.pure a) Q := by
  intro s hs
  refine ⟨rfl, hs, fun b hb => ?_⟩
  cases hb
  exact h

theorem throw (fault : Fault) : Agree I (throw fault : ExceptT Fault (StateM σ) α) (throw fault) Q :=
  fun _ hs => ⟨rfl, hs, fun _ hb => (by cases hb)⟩

theorem mono (h : Agree I m n Q) (hQ : ∀ a, Q a → Q' a) : Agree I m n Q' := fun s hs =>
  ⟨(h s hs).1, (h s hs).2.1, fun a ha => hQ a ((h s hs).2.2 a ha)⟩

theorem bind (first : Agree I m n Q) (second : ∀ a, Q a → Agree I (f a) (g a) R) :
    Agree I (m >>= f) (n >>= g) R := by
  intro s hs
  obtain ⟨heq, hI, hQ⟩ := first s hs
  rw [bind_apply, bind_apply, heq]
  rcases hn : n s with ⟨_ | a, t⟩
  · rw [hn] at hI
    exact ⟨rfl, hI, fun _ hb => (by cases hb)⟩
  · rw [hn] at hI hQ
    exact second a (hQ a rfl) t hI

/-- The state as it is read satisfies the invariant. -/
theorem get : Agree I (MonadState.get : ExceptT Fault (StateM σ) σ) MonadState.get I := by
  intro s hs
  refine ⟨rfl, hs, fun t ht => ?_⟩
  cases ht
  exact hs

theorem modify {change : σ → σ} (h : ∀ s, I s → I (change s)) {Q : Unit → Prop} (hQ : Q ()) :
    Agree I (modify change : ExceptT Fault (StateM σ) Unit) (modify change) Q :=
  fun s hs => ⟨rfl, h s hs, fun _ _ => hQ⟩

/-- A step that is run only where a condition holds. -/
theorem ite {c : Prop} [Decidable c] {m' n' : ExceptT Fault (StateM σ) α}
    (hpos : c → Agree I m n Q) (hneg : ¬ c → Agree I m' n' Q) :
    Agree I (if c then m else m') (if c then n else n') Q := by
  by_cases h : c
  · simpa [h] using hpos h
  · simpa [h] using hneg h

theorem ofExcept {result : Except Fault α} (h : ∀ a, result = .ok a → Q a) :
    Agree I (MonadExcept.ofExcept result : ExceptT Fault (StateM σ) α)
      (MonadExcept.ofExcept result) Q := by
  cases result with
  | error fault => exact throw fault
  | ok a => exact pure (h a rfl)

/-! ## Lists of steps -/

variable {γ : Type} {step step' : γ → ExceptT Fault (StateM σ) β} {items : List γ}

theorem mapM (h : ∀ item ∈ items, Agree I (step item) (step' item) R) :
    Agree I (items.mapM step) (items.mapM step') fun answers => ∀ b ∈ answers, R b := by
  induction items with
  | nil => exact pure (by simp)
  | cons item rest ih =>
    simp only [List.forall_mem_cons] at h
    rw [List.mapM_cons, List.mapM_cons]
    exact bind h.1 fun b hb => bind (ih h.2) fun bs hbs =>
      pure (List.forall_mem_cons.mpr ⟨hb, hbs⟩)

theorem forM {step step' : γ → ExceptT Fault (StateM σ) Unit}
    (h : ∀ item ∈ items, Agree I (step item) (step' item) fun _ => True) :
    Agree I (items.forM step) (items.forM step') fun _ => True := by
  induction items with
  | nil => exact pure trivial
  | cons item rest ih =>
    simp only [List.forall_mem_cons] at h
    exact bind h.1 fun _ _ => ih h.2

theorem foldlM {step step' : β → γ → ExceptT Fault (StateM σ) β} {start : β} (hstart : R start)
    (h : ∀ b item, item ∈ items → R b → Agree I (step b item) (step' b item) R) :
    Agree I (items.foldlM step start) (items.foldlM step' start) R := by
  induction items generalizing start with
  | nil => exact pure hstart
  | cons item rest ih =>
    rw [List.foldlM_cons, List.foldlM_cons]
    exact bind (h start item (List.mem_cons_self ..) hstart) fun b hb =>
      ih hb fun b item hitem => h b item (List.mem_cons_of_mem _ hitem)

end Agree

end Step

open Step

/-! ## Steps of the analysis -/

namespace Analysis

variable {α : Type} {I : Context → Prop} {Q : α → Prop}

theorem agree_fromHeap {read : Heap → α} (h : ∀ ctx, I ctx → Q (read ctx.heap)) :
    Agree I (fromHeap read) (fromHeap read) Q := by
  intro ctx hctx
  refine ⟨rfl, hctx, fun a ha => ?_⟩
  cases ha
  exact h ctx hctx

theorem agree_withHeap {step : Heap → α × Heap}
    (h : ∀ ctx, I ctx → I { ctx with heap := (step ctx.heap).2 } ∧ Q (step ctx.heap).1) :
    Agree I (withHeap step) (withHeap step) Q := by
  intro ctx hctx
  obtain ⟨hI, hQ⟩ := h ctx hctx
  refine ⟨rfl, hI, fun a ha => ?_⟩
  cases ha
  exact hQ

theorem agree_modifyHeap {change : Heap → Heap}
    (h : ∀ ctx, I ctx → I { ctx with heap := change ctx.heap }) :
    Agree I (modifyHeap change) (modifyHeap change) fun _ => True :=
  agree_withHeap fun ctx hctx => ⟨h ctx hctx, trivial⟩

end Analysis

/-! ## Steps of a frame -/

namespace FrameStep

variable {α : Type} {I : Context → Prop} {F : Frame → Prop} {Q : α → Prop}

/-- An invariant of the frame and one of the analysis. -/
def Both (F : Frame → Prop) (I : Context → Prop) (s : Execution) : Prop := F s.frame ∧ I s.context

theorem agree_analysis {m n : Analysis α} (h : Agree I m n Q) :
    Agree (Both F I) (analysis m) (analysis n) Q := by
  intro s hs
  obtain ⟨heq, hI, hQ⟩ := h s.context hs.2
  have hm : analysis m s = ((m s.context).1, ⟨s.frame, (m s.context).2⟩) := rfl
  have hn : analysis n s = ((n s.context).1, ⟨s.frame, (n s.context).2⟩) := rfl
  rw [hm, hn, heq]
  exact ⟨rfl, ⟨hs.1, hI⟩, hQ⟩

theorem agree_fromFrame {read : Frame → α} (h : ∀ frame, F frame → Q (read frame)) :
    Agree (Both F I) (fromFrame read) (fromFrame read) Q := by
  intro s hs
  refine ⟨rfl, hs, fun a ha => ?_⟩
  cases ha
  exact h s.frame hs.1

theorem agree_fromHeap {read : Heap → α} (h : ∀ ctx, I ctx → Q (read ctx.heap)) :
    Agree (Both F I) (fromHeap read) (fromHeap read) Q := by
  intro s hs
  refine ⟨rfl, hs, fun a ha => ?_⟩
  cases ha
  exact h s.context hs.2

theorem agree_modifyFrame {change : Frame → Frame} (h : ∀ frame, F frame → F (change frame)) :
    Agree (Both F I) (modifyFrame change) (modifyFrame change) fun _ => True :=
  fun s hs => ⟨rfl, ⟨h s.frame hs.1, hs.2⟩, fun _ _ => trivial⟩

theorem agree_modifyState {change : BlockState → BlockState}
    (h : ∀ frame, F frame → F { frame with state := change frame.state }) :
    Agree (Both F I) (modifyState change) (modifyState change) fun _ => True :=
  agree_modifyFrame h

theorem agree_check {result : Except Fault α} (h : ∀ a, result = .ok a → Q a) :
    Agree (Both F I) (check result) (check result) Q := .ofExcept h

end FrameStep

end StubInference
