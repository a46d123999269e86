import StubInference.Bytecode.Code

/-!
# The layout of parameters

The positions of the parameters among the names of a code object are sums of its counts. Every position
is cut down to the names there are, so nothing is read behind the last name. But the sums come first, and
where one of them is no word nothing is read at all.

## Main definitions

* `CodeOver.SumsFit` — the sums that the parameters are found by are words

## Main results

* `CodeOver.checkLayout_eq` — the parameters can be read just where the sums are words
* `CodeOver.reads_of_sumsFit` — what is read then
-/

namespace StubInference

namespace Panic

variable {α : Type} {items : List α} {start stop : Nat}

/-- A range that is cut down to the items is one of them. -/
theorem slice_of_le (h : start ≤ stop) (within : stop ≤ items.length) :
    slice items start stop = .ok ((items.take stop).drop start) := by
  rw [slice, if_neg (by omega), if_neg (by omega)]

theorem add_of_lt {a b : Nat} (h : a + b < twoTo 64) : add a b = .ok (a + b) := if_pos h

theorem add_of_not_lt {a b : Nat} (h : ¬ a + b < twoTo 64) : add a b = .error .addOverflow := if_neg h

end Panic

namespace CodeOver

variable {Constant : Type} (code : CodeOver Constant)

/-- The sums that the parameters of a code object are found by are words. -/
structure SumsFit : Prop where
  named : code.argCount + code.kwOnlyArgCount < twoTo 64
  keywords : code.varKeywords = true →
    code.argCount + code.kwOnlyArgCount + code.varArgs.toNat < twoTo 64

instance : Decidable code.SumsFit :=
  decidable_of_iff (code.argCount + code.kwOnlyArgCount < twoTo 64 ∧ (code.varKeywords = true →
    code.argCount + code.kwOnlyArgCount + code.varArgs.toNat < twoTo 64))
    ⟨fun h => ⟨h.1, h.2⟩, fun h => ⟨h.named, h.keywords⟩⟩

/-- The positional parameters are found without a sum. -/
theorem positionalSlice_eq : code.positionalSlice = .ok code.positionalParams := by
  rw [positionalSlice, Panic.slice_of_le (Nat.zero_le _) (Nat.min_le_right _ _)]
  simp [positionalParams, List.take_eq_take_min]

variable {code}

theorem kwOnlySlice_of_lt (h : code.argCount + code.kwOnlyArgCount < twoTo 64) :
    code.kwOnlySlice = .ok code.kwOnlyParams := by
  have order : min code.argCount code.varNames.length ≤
      min (code.argCount + code.kwOnlyArgCount) code.varNames.length := by omega
  have skipped : code.varNames.drop (min code.argCount code.varNames.length) =
      code.varNames.drop code.argCount := by
    rcases Nat.le_total code.argCount code.varNames.length with le | le
    · rw [Nat.min_eq_left le]
    · rw [Nat.min_eq_right le, List.drop_length, List.drop_eq_nil_of_le le]
  simp only [kwOnlySlice, Panic.add_of_lt h, bind, Except.bind]
  rw [Panic.slice_of_le order (Nat.min_le_right _ _), List.drop_take, skipped, kwOnlyParams]
  congr 1
  rw [List.take_eq_take_iff, List.length_drop]
  omega

theorem varArgsEntry_of_lt (h : code.argCount + code.kwOnlyArgCount < twoTo 64) :
    code.varArgsEntry = .ok code.varArgsName? := by
  unfold varArgsEntry varArgsName?
  split
  · rw [Panic.add_of_lt h]
    rfl
  · rfl

theorem varKeywordsEntry_of_sumsFit (h : code.SumsFit) :
    code.varKeywordsEntry = .ok code.varKeywordsName? := by
  unfold varKeywordsEntry varKeywordsName?
  split
  case isTrue keywords =>
    rw [Panic.add_of_lt h.named]
    simp only [bind, Except.bind]
    rw [Panic.add_of_lt (h.keywords keywords)]
    rfl
  case isFalse => rfl

/-- What is read where the sums are words is the layout. -/
theorem reads_of_sumsFit (h : code.SumsFit) : code.positionalSlice = .ok code.positionalParams ∧
    code.kwOnlySlice = .ok code.kwOnlyParams ∧ code.varArgsEntry = .ok code.varArgsName? ∧
    code.varKeywordsEntry = .ok code.varKeywordsName? :=
  ⟨code.positionalSlice_eq, kwOnlySlice_of_lt h.named, varArgsEntry_of_lt h.named,
    varKeywordsEntry_of_sumsFit h⟩

/-- The parameters can be read just where the sums are words. No range is to blame otherwise. -/
theorem checkLayout_eq (code : CodeOver Constant) :
    code.checkLayout = if code.SumsFit then .ok () else .error .addOverflow := by
  by_cases named : code.argCount + code.kwOnlyArgCount < twoTo 64
  · simp only [checkLayout, positionalSlice_eq, kwOnlySlice_of_lt named, varArgsEntry_of_lt named, bind,
      Except.bind]
    by_cases fit : code.SumsFit
    · rw [varKeywordsEntry_of_sumsFit fit, if_pos fit]
      rfl
    · -- the sums that the names of the variadic parameters are found by differ by one of them
      have keywords : code.varKeywords = true := by
        cases given : code.varKeywords with
        | true => rfl
        | false => exact absurd ⟨named, fun present => nomatch given.symm.trans present⟩ fit
      have outgrown : ¬ code.argCount + code.kwOnlyArgCount + code.varArgs.toNat < twoTo 64 :=
        fun within => fit ⟨named, fun _ => within⟩
      rw [if_neg fit]
      simp only [varKeywordsEntry, keywords, if_true, Panic.add_of_lt named, bind, Except.bind,
        Panic.add_of_not_lt outgrown]
  · have unfit : ¬ code.SumsFit := fun h => named h.named
    rw [if_neg unfit, checkLayout, positionalSlice_eq, kwOnlySlice, Panic.add_of_not_lt named]
    rfl

theorem checkLayout_eq_ok : code.checkLayout = .ok () ↔ code.SumsFit := by
  rw [checkLayout_eq]
  split <;> simp_all

end CodeOver

end StubInference
