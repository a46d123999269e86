import StubInference.Heap

/-!
# Descriptions of values

A finding names the value it is about by a description, which different values may share. That of a
union starts with a word that no other description starts with.

## Main results

* `Literal.head_text` — no literal has a text that starts like the description of a union
* `Value.describe_ne_union` — only a union is described like one
-/

namespace StubInference

/-! ## Texts of numbers -/

section Numbers

variable {c : Char}

namespace Decimal

theorem not_mem_digitText (digit : ¬ c.isDigit) (n : Nat) : c ∉ digitText n := fun hc =>
  digit (Nat.isDigit_of_mem_toDigits (by decide) (by decide) hc)

/-- Only zeros and the point join the digits. -/
theorem not_mem_placePoint {digits : List Char} {mark : Bool} (point : Int) (digit : ¬ c.isDigit)
    (dot : c ≠ '.') (h : c ∉ digits) : c ∉ placePoint mark digits point := by
  have zero : c ≠ '0' := by
    rintro rfl
    exact digit (by decide)
  have filled (n : Nat) : c ∉ List.replicate n '0' := fun hc => zero (List.eq_of_mem_replicate hc)
  unfold placePoint
  dsimp only
  split
  · simp [zero, dot, filled, h]
  · split
    · cases mark <;> simp [zero, dot, filled, h]
    · simp only [List.mem_append, List.mem_cons, not_or]
      exact ⟨fun hc => h (List.mem_of_mem_take hc), dot, fun hc => h (List.mem_of_mem_drop hc)⟩

end Decimal

namespace Literal

theorem not_mem_natText (digit : ¬ c.isDigit) (n : Nat) : c ∉ (toString n).toList := by
  rw [show toString n = String.ofList (Nat.toDigits 10 n) from rfl, String.toList_ofList]
  exact Decimal.not_mem_digitText digit n

theorem not_mem_intText (digit : ¬ c.isDigit) (minus : c ≠ '-') (n : Int) :
    c ∉ (toString n).toList := by
  cases n with
  | ofNat n => exact not_mem_natText digit n
  | negSucc n =>
    rw [show toString (Int.negSucc n) = "-" ++ toString (n + 1) from rfl, String.toList_append]
    simpa [minus] using not_mem_natText digit (n + 1)

theorem not_mem_floatText (bits : UInt64) : 'U' ∉ (floatText bits).toList := by
  unfold floatText
  cases Decimal.wholeNumber? bits with
  | some whole =>
    obtain ⟨negative, value⟩ := whole
    have digits := not_mem_natText (c := 'U') (by decide) value
    cases negative <;> simpa using digits
  | none =>
    dsimp only
    unfold Decimal.Layout.write
    cases Decimal.Double.ofBits bits with
    | notANumber => decide
    | infinite negative => cases negative <;> decide
    | finite negative mantissa exponent =>
      have body : 'U' ∉ (if mantissa = 0 then (if plainLayout.wholeMark then ['0', '.', '0']
          else ['0']) else plainLayout.writePositive mantissa exponent) := by
        split
        · decide
        · exact Decimal.not_mem_placePoint _ (by decide) (by decide)
            (Decimal.not_mem_digitText (by decide) _)
      dsimp only
      rw [String.toList_ofList]
      split
      · exact fun h => (List.mem_cons.mp h).elim (by decide) body
      · exact body

end Literal

end Numbers

/-! ## Descriptions -/

/-- No literal has a text that starts like the description of a union. -/
theorem Literal.head_text (l : Literal) : l.text.toList.head? ≠ some 'U' := by
  have of_not_mem {t : String} (h : 'U' ∉ t.toList) : t.toList.head? ≠ some 'U' :=
    fun hc => h (List.mem_of_mem_head? hc)
  cases l with
  | none => decide
  | bool value => cases value <;> decide
  | int value => exact of_not_mem (not_mem_intText (by decide) (by decide) value)
  | float bits => exact of_not_mem (not_mem_floatText bits)
  | str value => simp [text]
  | bytes value => simp [text]
  | ellipsis => decide
  | tuple items => rcases items with _ | ⟨item, _ | ⟨next, rest⟩⟩ <;> simp [text]
  | code site body => simp [text]

/-- A value that a join takes as it is is no union. -/
theorem Value.ne_union {a : Value} (plain : a.members = [a]) (members : List Value) :
    a ≠ .union members := by
  rintro rfl
  have size := congrArg sizeOf plain
  simp [Value.members] at size
  omega

/-- Only a union is described like one. -/
theorem Value.describe_ne_union {heap : Heap} {a : Value} (plain : a.members = [a])
    (members : List Value) : a.describe heap ≠ (Value.union members).describe heap := by
  have union : ((Value.union members).describe heap).toList.head? = some 'U' := by
    simp [Value.describe]
  suffices other : (a.describe heap).toList.head? ≠ some 'U' by
    intro same
    rw [same] at other
    exact other union
  cases a with
  | literal l => exact l.head_text
  | union members => exact absurd rfl (ne_union plain members)
  | _ => simp [Value.describe]

end StubInference
