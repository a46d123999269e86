import StubInference.Json.Reader
import StubInference.Json.Writer

/-!
# Numerals that read back

A number is written as a numeral and a numeral stands for a number. For the integers of the 64-bit
words the two are inverse to each other. For doubles they need not be: reading scales by powers of
ten with a rounding at each step, so whether a double survives is asked of each one.

## Main definitions

* `Json.Number.ReadsBack` — the text of a number is a numeral that stands for that number
* `Decimal.Double.IsFinite` — a double is neither infinite nor no number at all
* `Json.decimals` — the decimal digits of a natural number
* `Json.Numeral.unsigned?` — read a numeral behind its sign

## Main results

* `Json.Number.readsBack_integer` — the integers of the 64-bit words read back
* `Json.Numeral.starts_of_parse?`, `Json.Numeral.all_inNumeral_of_parse?` — the characters of a
  numeral
-/

namespace StubInference

/-- Whether a double is finite. -/
def Decimal.Double.IsFinite : Decimal.Double → Prop
  | .finite .. => True
  | .notANumber | .infinite _ => False

instance : (x : Decimal.Double) → Decidable x.IsFinite
  | .finite .. => inferInstanceAs (Decidable True)
  | .notANumber | .infinite _ => inferInstanceAs (Decidable False)

namespace Json

/-- The text of the number is a numeral, and it stands for that number. -/
def Number.ReadsBack (value : Number) : Prop :=
  (Numeral.parse? value.text.toList).map Numeral.toNumber = some value

instance (value : Number) : Decidable value.ReadsBack := inferInstanceAs (Decidable (_ = _))

/-! ## The digits of natural numbers -/

/-- The decimal digits of a natural number, most significant first. -/
def decimals (n : Nat) : List Nat := (Nat.toDigits 10 n).map fun c => c.toNat - '0'.toNat

theorem splitDigits_of_isDigit {chars : List Char} (h : ∀ c ∈ chars, c.isDigit) :
    splitDigits chars = (chars.map fun c => c.toNat - '0'.toNat, []) := by
  induction chars with
  | nil => rfl
  | cons c rest ih =>
    simp only [List.forall_mem_cons] at h
    simpa [splitDigits, digit?, h.1] using ih h.2

theorem isDigit_of_mem_toDigits {n : Nat} : ∀ c ∈ Nat.toDigits 10 n, c.isDigit := by
  intro c hc
  exact Nat.isDigit_of_mem_toDigits (by decide) (by decide) hc

theorem splitDigits_toDigits (n : Nat) : splitDigits (Nat.toDigits 10 n) = (decimals n, []) :=
  splitDigits_of_isDigit isDigit_of_mem_toDigits

@[simp] theorem digitsValue_decimals (n : Nat) : digitsValue (decimals n) = n := by
  rw [digitsValue, decimals, List.foldl_map, ← Nat.ofDigitChars_eq_foldl,
    Nat.ofDigitChars_ten_toDigits]

theorem decimals_ne_nil (n : Nat) : decimals n ≠ [] := by simp [decimals]

/-- No number is written with a superfluous zero in front. -/
theorem decimals_ne_zero_cons (n d : Nat) (rest : List Nat) : decimals n ≠ 0 :: d :: rest := by
  induction n using Nat.strongRecOn generalizing d rest with
  | _ n ih =>
    intro h
    by_cases small : n < 10
    · simp [decimals, Nat.toDigits_of_lt_base small] at h
    · -- the digits in front of the last one are those of `n / 10`, which is not zero
      have split : decimals n = decimals (n / 10) ++ [n % 10] := by
        have last := Nat.toNat_digitChar_sub_48_of_lt_ten (Nat.mod_lt n (by decide : 0 < 10))
        simpa [decimals, Nat.toDigits_of_base_le (by decide) (Nat.le_of_not_lt small)] using last
      rw [split] at h
      match front : decimals (n / 10) with
      | [] => exact decimals_ne_nil _ front
      | [_] =>
        simp only [front, List.cons_append, List.nil_append, List.cons.injEq] at h
        have none_left : n / 10 = 0 := by
          rw [← digitsValue_decimals (n / 10), front, h.1]
          rfl
        omega
      | _ :: e :: more =>
        simp only [front, List.cons_append, List.cons.injEq] at h
        exact ih (n / 10) (by omega) e more (by rw [front, h.1])

/-! ## Reading numerals -/

namespace Numeral

/-- Read a numeral behind its sign. -/
def unsigned? (negative : Bool) (chars : List Char) : Option Numeral :=
  match splitDigits chars with
  | ([], _) => none
  | (0 :: _ :: _, _) => none
  | (whole, '.' :: rest) =>
    match splitDigits rest with
    | ([], _) => none
    | (fraction, rest) => (exponent? rest).map (⟨negative, whole, fraction, ·⟩)
  | (whole, rest) => (exponent? rest).map (⟨negative, whole, [], ·⟩)

theorem parse?_minus (chars : List Char) : parse? ('-' :: chars) = unsigned? true chars := rfl

theorem parse?_of_ne_minus {chars : List Char} (h : ∀ rest, chars ≠ '-' :: rest) :
    parse? chars = unsigned? false chars := by
  rw [parse?]
  · rfl
  · exact h

/-- Digits without a superfluous zero are a numeral behind either sign. -/
theorem unsigned?_toDigits (negative : Bool) (n : Nat) :
    unsigned? negative (Nat.toDigits 10 n) = some ⟨negative, decimals n, [], none⟩ := by
  rw [unsigned?, splitDigits_toDigits]
  split
  · exact absurd (Prod.mk.inj ‹_›).1 (decimals_ne_nil n)
  · exact absurd (Prod.mk.inj ‹_›).1 (decimals_ne_zero_cons n _ _)
  · exact absurd (Prod.mk.inj ‹_›).2 (by simp)
  · obtain ⟨rfl, rfl⟩ := Prod.mk.inj ‹_›
    rfl

theorem parse?_toDigits (n : Nat) :
    parse? (Nat.toDigits 10 n) = some ⟨false, decimals n, [], none⟩ := by
  rw [← unsigned?_toDigits]
  apply parse?_of_ne_minus
  intro rest h
  have digit : ('-').isDigit := isDigit_of_mem_toDigits (n := n) '-' (by simp [h])
  simp at digit

/-! ## The characters of numerals -/

theorem splitDigits_fst_ne_nil {chars : List Char} (h : (splitDigits chars).1 ≠ []) :
    ∃ c rest, chars = c :: rest ∧ c.isDigit := by
  match chars with
  | [] => simp [splitDigits] at h
  | c :: rest =>
    by_cases digit : c.isDigit
    · exact ⟨c, rest, rfl, digit⟩
    · simp [splitDigits, digit] at h

theorem inNumeral_of_isDigit {c : Char} (h : c.isDigit) : inNumeral c := by simp [inNumeral, h]

/-- Leading digits belong to a numeral when what follows them does. -/
theorem all_inNumeral_of_splitDigits {chars : List Char}
    (h : ∀ c ∈ (splitDigits chars).2, inNumeral c) : ∀ c ∈ chars, inNumeral c := by
  induction chars with
  | nil => simp
  | cons c rest ih =>
    by_cases digit : c.isDigit
    · simp only [splitDigits, List.dropWhile_cons, digit, if_true] at h
      exact List.forall_mem_cons.mpr ⟨inNumeral_of_isDigit digit, ih h⟩
    · simpa [splitDigits, digit] using h

theorem all_inNumeral_of_exponent? {chars : List Char} :
    (exponent? chars).isSome → ∀ c ∈ chars, inNumeral c := by
  fun_cases exponent? chars with
  | case1 => simp
  | case3 mark rest isMark negative digits sign _ _ ends =>
    intro _
    have mark_in : inNumeral mark := by rcases isMark with rfl | rfl <;> rfl
    have digits_in : ∀ c ∈ digits, inNumeral c :=
      all_inNumeral_of_splitDigits (by simp [ends])
    refine List.forall_mem_cons.mpr ⟨mark_in, ?_⟩
    split at sign <;> obtain ⟨-, rfl⟩ := Prod.mk.inj sign
    · exact List.forall_mem_cons.mpr ⟨rfl, digits_in⟩
    · exact List.forall_mem_cons.mpr ⟨rfl, digits_in⟩
    · exact digits_in
  | case2 | case4 | case5 => simp

theorem all_inNumeral_of_unsigned? {negative : Bool} {chars : List Char} :
    (unsigned? negative chars).isSome → ∀ c ∈ chars, inNumeral c := by
  fun_cases unsigned? negative chars with
  | case1 | case2 | case3 => simp
  | case4 whole rest _ _ split fraction rest' _ split' =>
    intro h
    apply all_inNumeral_of_splitDigits
    simp only [split, List.forall_mem_cons]
    refine ⟨rfl, all_inNumeral_of_splitDigits ?_⟩
    simpa [split'] using all_inNumeral_of_exponent? (by simpa using h)
  | case5 whole rest _ _ _ split =>
    intro h
    apply all_inNumeral_of_splitDigits
    simpa [split] using all_inNumeral_of_exponent? (by simpa using h)

theorem starts_of_unsigned? {negative : Bool} {chars : List Char} :
    (unsigned? negative chars).isSome → ∃ c rest, chars = c :: rest ∧ c.isDigit := by
  fun_cases unsigned? negative chars with
  | case1 | case2 | case3 => simp
  | case4 whole rest some_digit _ split | case5 whole rest some_digit _ _ split =>
    intro _
    exact splitDigits_fst_ne_nil (by simpa [split] using some_digit)

/-- Every numeral is made of the characters that a numeral may hold. -/
theorem all_inNumeral_of_parse? {chars : List Char} (h : (parse? chars).isSome) :
    ∀ c ∈ chars, inNumeral c := by
  by_cases minus : ∃ rest, chars = '-' :: rest
  · obtain ⟨rest, rfl⟩ := minus
    exact List.forall_mem_cons.mpr ⟨rfl, all_inNumeral_of_unsigned? h⟩
  · rw [parse?_of_ne_minus (not_exists.mp minus)] at h
    exact all_inNumeral_of_unsigned? h

/-- Every numeral starts with a minus sign or a digit. -/
theorem starts_of_parse? {chars : List Char} (h : (parse? chars).isSome) :
    ∃ c rest, chars = c :: rest ∧ (c = '-' ∨ c.isDigit) := by
  by_cases minus : ∃ rest, chars = '-' :: rest
  · obtain ⟨rest, rfl⟩ := minus
    exact ⟨'-', rest, rfl, .inl rfl⟩
  · rw [parse?_of_ne_minus (not_exists.mp minus)] at h
    obtain ⟨c, rest, rfl, digit⟩ := starts_of_unsigned? h
    exact ⟨c, rest, rfl, .inr digit⟩

end Numeral

/-! ## Numbers that read back -/

namespace Number

theorem ReadsBack.isSome {value : Number} (h : value.ReadsBack) :
    (Numeral.parse? value.text.toList).isSome := by
  simpa using congrArg Option.isSome h

theorem toList_text_natCast (n : Nat) :
    (Number.integer n).text.toList = Nat.toDigits 10 n := by
  simp [text, Int.repr_eq_if, ← Nat.toString_eq_repr, Nat.toString_eq_ofList_toDigits]

theorem toList_text_neg {n : Nat} (h : 0 < n) :
    (Number.integer (-n)).text.toList = '-' :: Nat.toDigits 10 n := by
  have nonzero : n ≠ 0 := by omega
  simp [text, Int.repr_eq_if, nonzero, ← Nat.toString_eq_repr, Nat.toString_eq_ofList_toDigits]

/-- The integers that fit in a signed or an unsigned word of 64 bits read back. -/
theorem readsBack_integer {value : Int} (least : -(twoTo 63 : Int) ≤ value)
    (most : value < twoTo 64) : (Number.integer value).ReadsBack := by
  obtain ⟨n, rfl | rfl⟩ := value.eq_nat_or_neg
  · have fits : n < twoTo 64 := by omega
    simp [ReadsBack, toList_text_natCast, Numeral.parse?_toDigits, Numeral.toNumber, fits]
  · by_cases zero : n = 0
    · subst zero
      decide
    · have fits : n ≤ twoTo 63 := by omega
      have pos : 0 < n := Nat.pos_of_ne_zero zero
      simp [ReadsBack, toList_text_neg pos, Numeral.parse?_minus, Numeral.unsigned?_toDigits,
        Numeral.toNumber, pos, fits]

end Number

end Json

end StubInference
