import StubInference.Proofs.Bytecode.Building
import StubInference.Proofs.Bytecode.Written

/-!
# What a constant becomes in the pool

The pool of a builder takes a constant in unless it has an equal one, and the equality of the pool
compares doubles as numbers. So a constant refers to itself or to one that came earlier and is the same
up to the signs of its zeros, and a code object returns every constant that was put into it exactly if
no two of them differ in such a sign only.

## Main definitions

* `CodeBuilder.references` — the constants that steps give, with the positions they refer to
* `Opcode.constIndex?` — the position that an instruction refers to

## Main results

* `sameNumber_iff`, `ConstValue.eq_of_agree_of_unsigned` — constants that are equal without being the
  same have a negative zero among them
* `CodeBuilder.references_held` — what is at the position that a constant refers to
* `CodeBuilder.build_references_iff` — when it is the constant itself
* `CodeBuilder.references_faithful_of_unsigned` — it is, where there is no negative zero
-/

namespace StubInference

/-! ## Equal numbers -/

/-- The bits of the negative zero. -/
def negativeZero : UInt64 := 0x8000000000000000

namespace Decimal.Double

/-- The two zeros have no bit but the sign. -/
theorem ofBits_eq_zero {bits : UInt64} {negative : Bool} {exponent : Int}
    (h : ofBits bits = .finite negative 0 exponent) : bits = 0 ∨ bits = negativeZero := by
  have field : ((bits >>> 52) &&& 0x7ff).toNat = bits.toNat / 2 ^ 52 % 2 ^ 11 := by
    rw [UInt64.toNat_and, UInt64.toNat_shiftRight]
    exact (congrArg (· &&& 0x7ff) (Nat.shiftRight_eq_div_pow ..)).trans
      (Nat.and_two_pow_sub_one_eq_mod _ 11)
  have fraction : (bits &&& 0xfffffffffffff).toNat = bits.toNat % 2 ^ 52 := by
    rw [UInt64.toNat_and]
    exact Nat.and_two_pow_sub_one_eq_mod _ 52
  -- the exponent and the fraction are clear, so that the sign is all there can be
  have word := bits.toNat_lt
  have cleared : bits.toNat = 0 ∨ bits.toNat = 2 ^ 63 := by
    simp only [ofBits, field, fraction] at h
    split at h
    case isTrue => split at h <;> cases h
    case isFalse =>
      split at h
      case isTrue empty =>
        injection h with _ mantissa _
        omega
      case isFalse => injection h with _ mantissa _; simp [twoTo] at mantissa
  exact cleared.imp (UInt64.toNat_inj.mp ·) (UInt64.toNat_inj.mp ·)

end Decimal.Double

/-- Equal numbers are the same bits, but for the two zeros. -/
theorem sameNumber_iff {a b : UInt64} : sameNumber a b = true ↔
    Decimal.Double.ofBits a ≠ .notANumber ∧
      (a = b ∨ (a = 0 ∨ a = negativeZero) ∧ (b = 0 ∨ b = negativeZero)) := by
  constructor
  · intro same
    unfold sameNumber at same
    split at same
    case h_1 => cases same
    case h_2 first second =>
      exact ⟨by simp [first], .inr ⟨Decimal.Double.ofBits_eq_zero first,
        Decimal.Double.ofBits_eq_zero second⟩⟩
    case h_3 number _ => exact ⟨number, .inl (eq_of_beq same)⟩
  · rintro ⟨number, rfl | ⟨rfl | rfl, rfl | rfl⟩⟩
    · unfold sameNumber
      split
      case h_1 none => exact absurd none number
      case h_2 => rfl
      case h_3 => exact beq_self_eq_true a
    all_goals decide

theorem sameNumber_comm (a b : UInt64) : sameNumber a b = sameNumber b a := by
  have number : ∀ {bits : UInt64}, bits = 0 ∨ bits = negativeZero →
      Decimal.Double.ofBits bits ≠ .notANumber := by
    rintro _ (rfl | rfl) <;> decide
  have swap : ∀ {a b : UInt64}, sameNumber a b = true → sameNumber b a = true := by
    intro a b same
    obtain ⟨first, rfl | ⟨zero, zero'⟩⟩ := sameNumber_iff.mp same
    · exact same
    · exact sameNumber_iff.mpr ⟨number zero', .inr ⟨zero', zero⟩⟩
  exact Bool.eq_iff_iff.mpr ⟨swap, swap⟩

namespace ConstValue

/-! ## Equal constants -/

section Agree

variable {floats : UInt64 → UInt64 → Bool}

-- tuples and code objects hold lists of constants, so constants and lists go together

mutual
theorem agree_comm (comm : ∀ a b, floats a b = floats b a) (a b : ConstValue) :
    agree floats a b = agree floats b a := by
  cases a with
  | tuple as =>
    cases b with
    | tuple bs => simpa only [agree] using agreeAll_comm comm as bs
    | _ => rfl
  | code body =>
    cases body with
    | mk _ _ _ _ _ _ _ _ _ _ _ consts _ =>
      cases b with
      | code other =>
        cases other
        simp only [agree, agreeAll_comm comm consts, Bool.beq_comm]
      | _ => rfl
  | float a =>
    cases b with
    | float b => exact comm a b
    | _ => rfl
  | _ => cases b <;> simp [agree, Bool.beq_comm]

theorem agreeAll_comm (comm : ∀ a b, floats a b = floats b a) (as bs : List ConstValue) :
    agreeAll floats as bs = agreeAll floats bs as := by
  cases as with
  | nil => cases bs <;> rfl
  | cons a as =>
    cases bs with
    | nil => rfl
    | cons b bs => simp only [agreeAll, agree_comm comm a b, agreeAll_comm comm as bs]
end

mutual
/-- Constants that agree by one rule agree by another one that lets the same doubles agree. -/
theorem agree_imp {others : UInt64 → UInt64 → Bool} {a b : ConstValue}
    (finer : ∀ x y, .float x ∈ a.within → .float y ∈ b.within → floats x y = true → others x y = true)
    (h : agree floats a b = true) : agree others a b = true := by
  cases a with
  | tuple as =>
    cases b with
    | tuple bs =>
      simp only [agree] at h ⊢
      exact agreeAll_imp (fun x y hx hy => finer x y (.tail _ hx) (.tail _ hy)) h
    | _ => cases h
  | code body =>
    cases body with
    | mk _ _ _ _ _ _ _ _ _ _ _ consts _ =>
      cases b with
      | code other =>
        cases other
        simp only [agree, Bool.and_eq_true] at h ⊢
        refine ⟨⟨h.1.1, agreeAll_imp (fun x y hx hy => finer x y (.tail _ hx) (.tail _ hy)) h.1.2⟩,
          h.2⟩
      | _ => cases h
  | float a =>
    cases b with
    | float b => exact finer a b (.head _) (.head _) h
    | _ => cases h
  | _ => cases b <;> simp_all [agree]

theorem agreeAll_imp {others : UInt64 → UInt64 → Bool} {as bs : List ConstValue}
    (finer : ∀ x y, .float x ∈ withinAll as → .float y ∈ withinAll bs → floats x y = true →
      others x y = true)
    (h : agreeAll floats as bs = true) : agreeAll others as bs = true := by
  cases as with
  | nil => cases bs <;> simp_all [agreeAll]
  | cons a as =>
    cases bs with
    | nil => cases h
    | cons b bs =>
      simp only [agreeAll, withinAll, List.mem_append, Bool.and_eq_true] at h finer ⊢
      exact ⟨agree_imp (fun x y hx hy => finer x y (.inl hx) (.inl hy)) h.1,
        agreeAll_imp (fun x y hx hy => finer x y (.inr hx) (.inr hy)) h.2⟩
end

end Agree

/-- Equal constants are the same, unless there is a negative zero in one of them. -/
theorem eq_of_agree_of_unsigned {a b : ConstValue} (ha : .float negativeZero ∉ a.within)
    (hb : .float negativeZero ∉ b.within) (h : agree sameNumber a b = true) : a = b := by
  refine eq_of_agree (agree_imp (fun x y hx hy same => beq_iff_eq.mpr ?_) h)
  obtain ⟨-, rfl | ⟨rfl | rfl, rfl | rfl⟩⟩ := sameNumber_iff.mp same
  · rfl
  · rfl
  · exact absurd hy hb
  · exact absurd hx ha
  · rfl

end ConstValue

/-! ## References -/

/-- The position in the pool that an opcode refers to. -/
def Opcode.constIndex? : Opcode → Option Nat
  | .loadConst index | .kwNames index => some index
  | _ => none

/-- A step that takes its constants to the pool itself and refers to them in its instructions. -/
def BuildStep.Loads : BuildStep → Prop
  | .op _ | .addConst _ => False
  | _ => True

namespace CodeBuilder

variable (b : CodeBuilder)

/-- Constants that are added one after the other, with the position that each one gets. -/
def positions (b : CodeBuilder) : List ConstValue → List (ConstValue × Nat)
  | [] => []
  | value :: rest => (value, b.constIndex value) :: (b.addConst value).1.positions rest

/-- The constants that steps give, with the positions that they refer to. -/
def references (b : CodeBuilder) : List BuildStep → List (ConstValue × Nat)
  | [] => []
  | step :: rest => b.positions step.given ++ (b.take step).references rest

theorem map_fst_positions (b : CodeBuilder) (values : List ConstValue) :
    (b.positions values).map (·.1) = values := by
  induction values generalizing b with
  | nil => rfl
  | cons value values ih => rw [positions, List.map_cons, ih]

/-- The references of a step are those of the builder that takes it. -/
theorem references_append (b : CodeBuilder) (before later : List BuildStep) :
    b.references (before ++ later) = b.references before ++ (b.assemble before).references later := by
  induction before generalizing b with
  | nil => rfl
  | cons step before ih =>
    rw [List.cons_append, references, references, ih, assemble_cons, List.append_assoc]

/-- No constant is left out. -/
theorem map_fst_references (b : CodeBuilder) (steps : List BuildStep) :
    (b.references steps).map (·.1) = steps.flatMap BuildStep.given := by
  induction steps generalizing b with
  | nil => rfl
  | cons step steps ih =>
    rw [references, List.map_append, map_fst_positions, ih, List.flatMap_cons]

theorem mem_given_of_mem_references {b : CodeBuilder} {steps : List BuildStep}
    {ref : ConstValue × Nat} (h : ref ∈ b.references steps) :
    ref.1 ∈ steps.flatMap BuildStep.given :=
  map_fst_references b steps ▸ List.mem_map_of_mem h

/-- The instructions of a step refer to the positions that its constants get. -/
theorem filterMap_constIndex? {step : BuildStep} (loads : step.Loads) :
    (b.added step).filterMap (·.opcode.constIndex?) = (b.positions step.given).map (·.2) := by
  cases step with
  | op | addConst => exact loads.elim
  | defClass body name bases =>
    simp [positions, Opcode.constIndex?, List.filterMap_append, List.filterMap_map]
  | _ => simp [positions, Opcode.constIndex?]

/-! ## The pool -/

/-- The pool gathers the constants of all steps. -/
theorem consts_assemble (b : CodeBuilder) (steps : List BuildStep) : (b.assemble steps).consts =
    gatherBy (ConstValue.agree sameNumber) b.consts (steps.flatMap BuildStep.given) := by
  induction steps generalizing b with
  | nil => rfl
  | cons step steps ih =>
    rw [assemble_cons, ih, List.flatMap_cons, gatherBy_append]
    exact congrArg (gatherBy _ · _) (congrArg consts (take_eq b step))

/-- A pool has at the position that a constant refers to the constant or one that equals it. -/
def HeldIn (pool : List ConstValue) (ref : ConstValue × Nat) : Prop :=
  ∃ held, pool[ref.2]? = some held ∧ (held = ref.1 ∨ held.agree sameNumber ref.1 = true)

/-- More constants come in behind. -/
theorem HeldIn.gather {pool : List ConstValue} {ref : ConstValue × Nat} (h : HeldIn pool ref)
    (values : List ConstValue) : HeldIn (gatherBy (ConstValue.agree sameNumber) pool values) ref := by
  obtain ⟨held, there, same⟩ := h
  obtain ⟨extra, appended, -⟩ := gatherBy_eq_append (ConstValue.agree sameNumber) pool values
  rw [appended]
  obtain ⟨inside, -⟩ := List.getElem?_eq_some_iff.mp there
  exact ⟨held, by rw [List.getElem?_append_left inside, there], same⟩

/-- A constant that is added refers to an equal one that was there, or has come in at the end. -/
theorem heldIn_addConst (value : ConstValue) :
    HeldIn (b.addConst value).1.consts (value, b.constIndex value) := by
  rw [constIndex_eq]
  unfold addConst
  cases found : b.consts.findIdx? fun known => known.agree sameNumber value with
  | none => exact ⟨value, by simp, .inl rfl⟩
  | some index =>
    obtain ⟨inside, same, -⟩ := List.findIdx?_eq_some_iff_getElem.mp found
    exact ⟨_, List.getElem?_eq_getElem inside, .inr same⟩

theorem positions_held (b : CodeBuilder) (values : List ConstValue) :
    ∀ ref ∈ b.positions values,
      HeldIn (gatherBy (ConstValue.agree sameNumber) b.consts values) ref := by
  induction values generalizing b with
  | nil => exact nofun
  | cons value values ih =>
    have first : (b.addConst value).1.consts =
        gatherBy (ConstValue.agree sameNumber) b.consts [value] := by rw [addConst_fst]
    have rest : gatherBy (ConstValue.agree sameNumber) b.consts (value :: values) =
        gatherBy (ConstValue.agree sameNumber) (b.addConst value).1.consts values := by
      rw [first, ← gatherBy_append, List.singleton_append]
    rw [positions, rest, List.forall_mem_cons]
    exact ⟨(heldIn_addConst b value).gather values, ih _⟩

/-- Whatever else is added, the pool keeps for each constant what it refers to. -/
theorem references_held (b : CodeBuilder) (steps : List BuildStep) :
    ∀ ref ∈ b.references steps, HeldIn (b.assemble steps).consts ref := by
  induction steps generalizing b with
  | nil => exact nofun
  | cons step steps ih =>
    -- what the step refers to is held right behind it, and the later steps only gather
    rw [references, List.forall_mem_append, assemble_cons]
    refine ⟨fun ref member => ?_, ih _⟩
    rw [consts_assemble]
    refine HeldIn.gather ?_ _
    rw [take_eq]
    exact positions_held b step.given ref member

/-- What is in the pool has been put there. -/
theorem mem_given_of_held {name : String} {steps : List BuildStep} {index : Nat} {held : ConstValue}
    (there : ((new name).assemble steps).consts[index]? = some held) :
    held ∈ steps.flatMap BuildStep.given := by
  have inside := List.mem_of_getElem? there
  rw [consts_assemble] at inside
  exact (mem_or_mem_of_mem_gatherBy inside).resolve_left (by simp [new])

/-- Every constant refers to itself exactly if no two constants are equal without being the same. -/
theorem references_faithful_iff (name : String) (steps : List BuildStep) :
    (∀ ref ∈ (new name).references steps,
        ((new name).assemble steps).consts[ref.2]? = some ref.1) ↔
      ∀ u ∈ steps.flatMap BuildStep.given, ∀ v ∈ steps.flatMap BuildStep.given,
        u.agree sameNumber v = true → u = v := by
  have pool := consts_assemble (new name) steps
  constructor
  · intro faithful u hu v hv same
    rw [← map_fst_references (new name)] at hu hv
    obtain ⟨⟨_, i⟩, hi, rfl⟩ := List.mem_map.mp hu
    obtain ⟨⟨_, j⟩, hj, rfl⟩ := List.mem_map.mp hv
    obtain ⟨insideI, first⟩ := List.getElem?_eq_some_iff.mp (faithful _ hi)
    obtain ⟨insideJ, second⟩ := List.getElem?_eq_some_iff.mp (faithful _ hj)
    -- equal constants are at one position, since the pool has none of them twice
    have distinct : ((new name).assemble steps).consts.Pairwise
        fun a b => ConstValue.agree sameNumber a b = false := by
      rw [pool]
      exact pairwise_gatherBy .nil _
    have apart := List.pairwise_iff_getElem.mp distinct
    rcases Nat.lt_trichotomy i j with lt | rfl | lt
    · have unequal := apart i j insideI insideJ lt
      rw [first, second, same] at unequal
      cases unequal
    · exact first.symm.trans second
    · have unequal := apart j i insideJ insideI lt
      rw [first, second, ConstValue.agree_comm sameNumber_comm, same] at unequal
      cases unequal
  · intro apart ref member
    obtain ⟨held, there, same⟩ := references_held _ _ ref member
    rcases same with rfl | same
    · exact there
    -- an equal constant has been put there by a step too, so it is the same
    · rw [there, apart held (mem_given_of_held there) _ (mem_given_of_mem_references member) same]

/-! ## What is built -/

/-- Without a negative zero in the constants, every one of them refers to itself. -/
theorem references_faithful_of_unsigned {steps : List BuildStep} (name : String)
    (unsigned : ∀ value ∈ steps.flatMap BuildStep.given, .float negativeZero ∉ value.within) :
    ∀ ref ∈ (new name).references steps,
      ((new name).assemble steps).build.consts[ref.2]? = some ref.1 :=
  (references_faithful_iff name steps).mpr fun _ hu _ hv =>
    ConstValue.eq_of_agree_of_unsigned (unsigned _ hu) (unsigned _ hv)

/-- Each constant that is put into a code object, by whatever steps, refers to a constant that was put
there and is the same or equal to it. They are the same for all constants exactly if no two of them are
equal without being the same, which are constants with zeros of different signs. The references of a step
are the positions that its constants get, and the instructions of a step that loads constants have these
positions. -/
theorem build_references_iff (name : String) (steps : List BuildStep) :
    let code := ((new name).assemble steps).build
    let given := steps.flatMap BuildStep.given
    ((new name).references steps).map (·.1) = given ∧
    (∀ ref ∈ (new name).references steps, ∃ held ∈ given, code.consts[ref.2]? = some held ∧
      (held = ref.1 ∨ held.agree sameNumber ref.1 = true)) ∧
    ((∀ ref ∈ (new name).references steps, code.consts[ref.2]? = some ref.1) ↔
      ∀ u ∈ given, ∀ v ∈ given, u.agree sameNumber v = true → u = v) ∧
    ∀ before step after, steps = before ++ step :: after →
      let b := (new name).assemble before
      (new name).references steps = (new name).references before ++ b.positions step.given ++
        (b.take step).references after ∧
      (step.Loads →
        (b.added step).filterMap (·.opcode.constIndex?) = (b.positions step.given).map (·.2)) := by
  intro code given
  refine ⟨map_fst_references _ _, fun ref member => ?_, references_faithful_iff name steps, ?_⟩
  · obtain ⟨held, there, same⟩ := references_held _ _ ref member
    exact ⟨held, mem_given_of_held there, there, same⟩
  · rintro before step after rfl b
    exact ⟨by rw [references_append, references, List.append_assoc], filterMap_constIndex? b⟩

/-- Both zeros, one after the other. -/
def zeroSteps : List BuildStep :=
  [.loadConst (.float 0), .loadConst (.float negativeZero), .returnNone]

/-- The negative zero refers to the other one. -/
theorem zeroSteps_unfaithful :
    (new "<module>").references zeroSteps =
      [(.float 0, 0), (.float negativeZero, 0), (.none, 1)] ∧
    ((new "<module>").assemble zeroSteps).build.consts = [.float 0, .none] ∧
    ¬ ∀ ref ∈ (new "<module>").references zeroSteps,
      ((new "<module>").assemble zeroSteps).build.consts[ref.2]? = some ref.1 := by
  have references : (new "<module>").references zeroSteps =
      [(.float 0, 0), (.float negativeZero, 0), (.none, 1)] := by decide
  have consts : ((new "<module>").assemble zeroSteps).build.consts = [.float 0, .none] := by decide
  refine ⟨references, consts, fun faithful => ?_⟩
  have kept := faithful (.float negativeZero, 0) (by rw [references]; simp)
  rw [consts] at kept
  exact absurd kept (by decide)

end CodeBuilder

end StubInference
