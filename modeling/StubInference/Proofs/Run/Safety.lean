import StubInference.Proofs.Run.Agree
import StubInference.Proofs.Run.Closure

/-!
# Safe steps

A step is safe where an invariant of the state carries it through: it keeps the invariant, whatever it
answers has a given property, and it never ends in a fault that the analysed program is not to blame
for. Sequences of safe steps are safe.

Whether a function is an analysed one is a matter of the state that it is looked up in, and sequences
of steps that only read stay in one state. So what a step leads to is said of one state first.

## Main definitions

* `Step.Leads` — what a safe step leads to from one state
* `Step.Safe` — a step that is safe from every state with the invariant

## Main results

* `Step.Safe.bind`, `Step.Safe.mapM`, `Step.Safe.foldlM` — sequences of safe steps
* `Step.Leads.read` — a safe step behind one that only reads
* `FrameStep.safe_analysis` — safe steps of the analysis inside a frame
-/

namespace StubInference

namespace Step

variable {σ α β γ : Type} {I : σ → Prop}

/-- From a state on, a step keeps an invariant, answers something with a property, and ends in no
internal fault. -/
structure Leads (I : σ → Prop) (m : ExceptT Fault (StateM σ) α) (Q : α → Prop) (s : σ) : Prop where
  kept : I (m s).2
  answer : ∀ a, (m s).1 = .ok a → Q a
  faults : ∀ fault, (m s).1 = .error fault → fault.isInternal = false

/-- A step that does so from every state with the invariant. -/
def Safe (I : σ → Prop) (m : ExceptT Fault (StateM σ) α) (Q : α → Prop) : Prop :=
  ∀ s, I s → Leads I m Q s

variable {m : ExceptT Fault (StateM σ) α} {f : α → ExceptT Fault (StateM σ) β} {Q : α → Prop}
  {R : β → Prop} {s t : σ}

namespace Leads

theorem of_ok {a : α} (run : m s = (.ok a, t)) (kept : I t) (answer : Q a) : Leads I m Q s := by
  constructor <;> rw [run]
  · exact kept
  · rintro _ ⟨⟩
    exact answer
  · exact nofun

theorem of_error {fault : Fault} (run : m s = (.error fault, t)) (kept : I t)
    (h : fault.isInternal = false) : Leads I m Q s := by
  constructor <;> rw [run]
  · exact kept
  · exact nofun
  · rintro _ ⟨⟩
    exact h

theorem bind (first : Leads I m Q s) (second : ∀ a, Q a → Safe I (f a) R) :
    Leads I (m >>= f) R s := by
  rcases hm : m s with ⟨fault | a, t⟩
  · have run : (m >>= f) s = (.error fault, t) := by rw [bind_apply, hm]
    have kept := first.kept
    rw [hm] at kept
    exact .of_error run kept (first.faults fault (by rw [hm]))
  · have run : (m >>= f) s = f a t := bind_of_ok hm
    have kept := first.kept
    rw [hm] at kept
    obtain ⟨later, answer, faults⟩ := second a (first.answer a (by rw [hm])) t kept
    exact ⟨run ▸ later, run ▸ answer, run ▸ faults⟩

/-- Behind a step that only reads the rest goes on from the same state. -/
theorem read {a : α} (now : m s = (.ok a, s)) (rest : Leads I (f a) R s) :
    Leads I (m >>= f) R s := by
  have run : (m >>= f) s = f a s := bind_of_ok now
  exact ⟨run ▸ rest.kept, run ▸ rest.answer, run ▸ rest.faults⟩

end Leads

namespace Safe

theorem pure {a : α} (h : Q a) : Safe I (Pure.pure a) Q := fun _ hs => .of_ok rfl hs h

theorem throw {fault : Fault} (h : fault.isInternal = false) :
    Safe I (throw fault : ExceptT Fault (StateM σ) α) Q := fun _ hs => .of_error rfl hs h

theorem bind (first : Safe I m Q) (second : ∀ a, Q a → Safe I (f a) R) : Safe I (m >>= f) R :=
  fun s hs => (first s hs).bind second

/-- The state as it is read has the invariant. -/
theorem get : Safe I (MonadState.get : ExceptT Fault (StateM σ) σ) I := fun _ hs => .of_ok rfl hs hs

theorem ite {c : Prop} [Decidable c] {m' : ExceptT Fault (StateM σ) α} (hpos : c → Safe I m Q)
    (hneg : ¬ c → Safe I m' Q) : Safe I (if c then m else m') Q := by
  split
  case isTrue h => exact hpos h
  case isFalse h => exact hneg h

theorem ofExcept {result : Except Fault α}
    (faults : ∀ fault, result = .error fault → fault.isInternal = false)
    (h : ∀ a, result = .ok a → Q a) :
    Safe I (MonadExcept.ofExcept result : ExceptT Fault (StateM σ) α) Q := by
  cases result with
  | error fault => exact throw (faults fault rfl)
  | ok a => exact pure (h a rfl)

/-! ### Lists of steps -/

theorem mapM {step : γ → ExceptT Fault (StateM σ) β} {items : List γ}
    (h : ∀ item ∈ items, Safe I (step item) R) :
    Safe I (items.mapM step) fun results => ∀ b ∈ results, R b := by
  induction items with
  | nil => exact pure (List.forall_mem_nil _)
  | cons item rest ih =>
    obtain ⟨here, later⟩ := List.forall_mem_cons.mp h
    rw [List.mapM_cons]
    exact here.bind fun b hb => (ih later).bind fun bs hbs => pure (List.forall_mem_cons.mpr ⟨hb, hbs⟩)

theorem foldlM {step : β → γ → ExceptT Fault (StateM σ) β} {items : List γ} {start : β}
    (hstart : R start) (h : ∀ b, ∀ item ∈ items, R b → Safe I (step b item) R) :
    Safe I (items.foldlM step start) R := by
  induction items generalizing start with
  | nil => exact pure hstart
  | cons item rest ih =>
    rw [List.foldlM_cons]
    exact (h start item List.mem_cons_self hstart).bind fun b hb =>
      ih hb fun b item hitem => h b item (List.mem_cons_of_mem _ hitem)

theorem forM {step : γ → ExceptT Fault (StateM σ) Unit} {items : List γ}
    (h : ∀ item ∈ items, Safe I (step item) fun _ => True) :
    Safe I (items.forM step) fun _ => True := by
  induction items with
  | nil => exact pure trivial
  | cons item rest ih =>
    obtain ⟨here, later⟩ := List.forall_mem_cons.mp h
    exact here.bind fun _ _ => ih later

end Safe

end Step

open Step

/-! ## Steps of the analysis -/

namespace Analysis

variable {α : Type} {I : Context → Prop} {Q : α → Prop}

theorem safe_fromHeap {read : Heap → α} (h : ∀ ctx, I ctx → Q (read ctx.heap)) :
    Safe I (fromHeap read) Q := fun ctx hctx => .of_ok rfl hctx (h ctx hctx)

theorem safe_withHeap {step : Heap → α × Heap}
    (h : ∀ ctx, I ctx → I { ctx with heap := (step ctx.heap).2 } ∧ Q (step ctx.heap).1) :
    Safe I (withHeap step) Q := fun ctx hctx => .of_ok rfl (h ctx hctx).1 (h ctx hctx).2

end Analysis

/-! ## Steps of a frame -/

namespace FrameStep

variable {α : Type} {I : Context → Prop} {F : Frame → Prop} {Q : α → Prop}

theorem safe_analysis {m : Analysis α} (h : Safe I m Q) : Safe (Both F I) (analysis m) Q :=
  fun s hs =>
    have here := h s.context hs.2
    ⟨⟨hs.1, here.kept⟩, here.answer, here.faults⟩

theorem safe_fromFrame {read : Frame → α} (h : ∀ frame, F frame → Q (read frame)) :
    Safe (Both F I) (fromFrame read) Q := fun s hs => .of_ok rfl hs (h s.frame hs.1)

theorem safe_fromHeap {read : Heap → α} (h : ∀ ctx, I ctx → Q (read ctx.heap)) :
    Safe (Both F I) (fromHeap read) Q := fun s hs => .of_ok rfl hs (h s.context hs.2)

theorem safe_modifyFrame {change : Frame → Frame} (h : ∀ frame, F frame → F (change frame)) :
    Safe (Both F I) (modifyFrame change) fun _ => True :=
  fun s hs => .of_ok rfl ⟨h s.frame hs.1, hs.2⟩ trivial

/-- Plain checks are safe. -/
theorem safe_check {result : Except Fault α} (plain : Fault.Plain result)
    (h : ∀ a, result = .ok a → Q a) : Safe (Both F I) (check result) Q :=
  .ofExcept (fun fault hfault => (Fault.isPlain_iff.mp (plain fault hfault)).2) h

end FrameStep

end StubInference
