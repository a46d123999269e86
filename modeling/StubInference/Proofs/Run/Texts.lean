import Mathlib.Data.FinEnum
import StubInference.Json.Reader
import StubInference.Proofs.Run.Duplicates

/-!
# Texts of literals

A literal is written so that its text tells it, whatever strings are in it. The first character tells the
type. Quoted text has an escape for each of its characters that could be read as something else, so it
ends at the first quote without a backslash. What stands in a tuple ends at a comma or at a parenthesis,
neither of which is part of a number or of a word. So of two literals in front of a text the shorter one
cannot be read as the start of the longer one, and literals with one text are one literal.

Doubles and code objects are left out. Different doubles that are no numbers have one text, and code
objects are written by their name only.

## Main definitions

* `Literal.Plain` — literals without doubles and code objects
* `PrefixCode` — a code whose words end by themselves
* `Delimited` — what may follow the text of a literal
* `Literal.refusal` — what is reported of a literal that is called

## Main results

* `PrefixCode.flatMap_append_inj` — coded text up to its end mark tells what was coded
* `Literal.Plain.told` — a literal is told by any text that it starts
* `Literal.Plain.text_inj` — literals with the same text are the same
* `Literal.texts_unambiguous` — so they are in the log of findings
-/

namespace StubInference

/-! ## Codes that end by themselves -/

/-- A way to write items as texts, none of which is the start of another one or starts with the mark that
ends a text of several items. -/
structure PrefixCode {α : Type} (code : α → List Char) (mark : Char) : Prop where
  append_inj : ∀ a b r s, code a ++ r = code b ++ s → a = b ∧ r = s
  ne_mark : ∀ a r s, code a ++ r ≠ mark :: s

/-- Several items up to the mark behind them are told by any text that they start. -/
theorem PrefixCode.flatMap_append_inj {α : Type} {code : α → List Char} {mark : Char}
    (coded : PrefixCode code mark) {as bs : List α} {r s : List Char}
    (h : as.flatMap code ++ mark :: r = bs.flatMap code ++ mark :: s) : as = bs ∧ r = s := by
  induction as generalizing bs with
  | nil =>
    cases bs with
    | nil => exact ⟨rfl, List.cons.inj h |>.2⟩
    | cons b bs =>
      rw [List.flatMap_cons, List.append_assoc] at h
      exact absurd h.symm (coded.ne_mark b _ _)
  | cons a as ih =>
    rw [List.flatMap_cons, List.append_assoc] at h
    cases bs with
    | nil => exact absurd h (coded.ne_mark a _ _)
    | cons b bs =>
      rw [List.flatMap_cons, List.append_assoc] at h
      obtain ⟨rfl, rest⟩ := coded.append_inj a b _ _ h
      obtain ⟨rfl, rfl⟩ := ih rest
      exact ⟨rfl, rfl⟩

namespace Literal

/-! ## Quoted text -/

theorem prefixCode_quotedChar : PrefixCode quotedChar '\'' where
  append_inj a b r s h := by
    unfold quotedChar at h
    split_ifs at h <;> grind
  ne_mark a r s h := by
    unfold quotedChar at h
    split_ifs at h <;> grind

/-- A byte is written as one character, as another one behind a backslash, or as two behind a backslash
and an `x`. -/
theorem quotedByte_shape (byte : UInt8) :
    (∃ c, quotedByte byte = [c] ∧ c ≠ '\\' ∧ c ≠ '\'') ∨
      (∃ c, quotedByte byte = ['\\', c] ∧ c ≠ 'x') ∨ ∃ c d, quotedByte byte = ['\\', 'x', c, d] := by
  have some : 0 < (Nat.toDigits 16 byte.toNat).length := Nat.length_toDigits_pos
  have atMost : (Nat.toDigits 16 byte.toNat).length ≤ 2 :=
    (Nat.length_toDigits_le_iff (by decide) (by decide)).mpr byte.toNat_lt
  unfold quotedByte
  dsimp only
  split_ifs with quote backslash printable short
  · exact .inr (.inl ⟨'\'', rfl, by decide⟩)
  · exact .inr (.inl ⟨'\\', rfl, by decide⟩)
  · exact .inl ⟨_, rfl, backslash, quote⟩
  · have one : (Nat.toDigits 16 byte.toNat).length = 1 := by omega
    obtain ⟨d, digits⟩ := List.length_eq_one_iff.mp one
    exact .inr (.inr ⟨'0', d, by rw [digits]; rfl⟩)
  · have two : (Nat.toDigits 16 byte.toNat).length = 2 := by omega
    obtain ⟨c, d, digits⟩ := List.length_eq_two.mp two
    exact .inr (.inr ⟨c, d, by rw [digits]; rfl⟩)

/-- The number of the byte that is written so. -/
def byteOf? : List Char → Option Nat
  | ['\\', 'x', c, d] => do pure (16 * (← Json.hexDigit? c) + (← Json.hexDigit? d))
  | ['\\', c] | [c] => some c.toNat
  | _ => Option.none

theorem byteOf?_quotedByte : ∀ byte, byteOf? (quotedByte byte) = some byte.toNat := by
  decide +kernel

theorem quotedByte_injective : Function.Injective quotedByte := fun a b same => by
  have bytes := byteOf?_quotedByte a
  rw [same, byteOf?_quotedByte b, Option.some.injEq] at bytes
  exact UInt8.toNat_inj.mp bytes.symm

theorem prefixCode_quotedByte : PrefixCode quotedByte '\'' where
  append_inj a b r s h := by
    -- the first two characters tell how many there are
    suffices same : (quotedByte a).length = (quotedByte b).length by
      obtain ⟨code, rest⟩ := List.append_inj h same
      exact ⟨quotedByte_injective code, rest⟩
    rcases quotedByte_shape a with ⟨c, ha, hc, -⟩ | ⟨c, ha, hc⟩ | ⟨c, d, ha⟩ <;>
      rcases quotedByte_shape b with ⟨e, hb, he, -⟩ | ⟨e, hb, he⟩ | ⟨e, f, hb⟩ <;>
      rw [ha, hb] at h ⊢ <;> grind
  ne_mark a r s h := by
    rcases quotedByte_shape a with ⟨c, ha, -, hc⟩ | ⟨c, ha, -⟩ | ⟨c, d, ha⟩ <;> rw [ha] at h <;> grind

/-! ## Words and numbers -/

/-- A character that ends a literal which does not end by itself. -/
def isDelimiter (c : Char) : Bool := c == ',' || c == ')'

/-- What may follow a literal: nothing, or a text that starts with a delimiter. -/
def Delimited (rest : List Char) : Prop := ∀ c ∈ rest.head?, isDelimiter c = true

theorem takeWhile_word {word rest : List Char} (plain : ∀ c ∈ word, isDelimiter c = false)
    (delimited : Delimited rest) : (word ++ rest).takeWhile (!isDelimiter ·) = word := by
  have stop : rest.takeWhile (!isDelimiter ·) = [] := by
    cases rest with
    | nil => rfl
    | cons c rest => rw [List.takeWhile_cons_of_neg (by simp [delimited c rfl])]
  rw [List.takeWhile_append_of_pos fun c hc => by simp [plain c hc], stop, List.append_nil]

/-- Words up to a delimiter are told by the texts that they start. -/
theorem append_inj_of_delimited {v w r s : List Char} (hv : ∀ c ∈ v, isDelimiter c = false)
    (hw : ∀ c ∈ w, isDelimiter c = false) (hr : Delimited r) (hs : Delimited s) (h : v ++ r = w ++ s) :
    v = w ∧ r = s := by
  have words : v = w := by rw [← takeWhile_word hv hr, h, takeWhile_word hw hs]
  rw [words] at h
  exact ⟨words, List.append_cancel_left h⟩

theorem natText_injective : Function.Injective (toString : Nat → String) := by
  have left : Function.LeftInverse (fun text : String => Nat.ofDigitChars 10 text.toList 0) toString := by
    intro n
    have digits : (toString n).toList = Nat.toDigits 10 n := String.toList_ofList
    dsimp only
    rw [digits, Nat.ofDigitChars_ten_toDigits]
  exact left.injective

theorem intText_injective : Function.Injective (toString : Int → String) := by
  have sign (m n : Nat) : toString (Int.negSucc m) ≠ toString (Int.ofNat n) := by
    intro same
    have minus : '-' ∈ (toString (Int.negSucc m)).toList := by
      rw [show toString (Int.negSucc m) = "-" ++ toString (m + 1) from rfl, String.toList_append]
      exact List.mem_append_left _ (List.mem_singleton_self _)
    rw [same] at minus
    exact not_mem_natText (by decide) n minus
  intro m n same
  cases m with
  | ofNat m =>
    cases n with
    | ofNat n =>
      have numbers : m = n := natText_injective same
      rw [numbers]
    | negSucc n => exact absurd same.symm (sign n m)
  | negSucc m =>
    cases n with
    | ofNat n => exact absurd same (sign m n)
    | negSucc n =>
      have digits : "-" ++ toString (m + 1) = "-" ++ toString (n + 1) := same
      have numbers := natText_injective ((String.append_right_inj _).mp digits)
      rw [Nat.succ.inj numbers]

theorem intText_ne_nil (n : Int) : (toString n).toList ≠ [] := by
  cases n with
  | ofNat n =>
    have digits : (toString (Int.ofNat n)).toList = Nat.toDigits 10 n := String.toList_ofList
    rw [digits]
    exact List.ne_nil_of_length_pos Nat.length_toDigits_pos
  | negSucc n =>
    rw [show toString (Int.negSucc n) = "-" ++ toString (n + 1) from rfl, String.toList_append]
    exact List.append_ne_nil_of_left_ne_nil (List.cons_ne_nil _ _) _

/-! ## Literals -/

/-- A literal without doubles and code objects, at any depth. -/
inductive Plain : Literal → Prop
  | none : Plain .none
  | bool (value : Bool) : Plain (.bool value)
  | int (value : Int) : Plain (.int value)
  | str (value : String) : Plain (.str value)
  | bytes (value : List UInt8) : Plain (.bytes value)
  | ellipsis : Plain .ellipsis
  | tuple {items : List Literal} (all : ∀ item ∈ items, Plain item) : Plain (.tuple items)

/-- The name of the type of the literals without doubles and code objects whose text starts so. -/
def typeNameAt : Char → String
  | 'N' => "NoneType"
  | 'T' | 'F' => "bool"
  | '\'' => "str"
  | 'b' => "bytes"
  | 'E' => "ellipsis"
  | '(' => "tuple"
  | _ => "int"

/-- The items of a tuple behind its first ones, up to the end of the tuple. -/
def moreText : List Literal → List Char
  | [] => [')']
  | item :: rest => ',' :: ' ' :: (item.text.toList ++ moreText rest)

/-- A tuple behind its first item, which is followed by a comma if it is the only one. -/
def restText : List Literal → List Char
  | [] => [',', ')']
  | rest => moreText rest

theorem toList_text_tuple (item : Literal) (rest : List Literal) :
    (tuple (item :: rest)).text.toList = '(' :: (item.text.toList ++ restText rest) := by
  have more (item : Literal) (rest : List Literal) :
      (", ".intercalate (texts (item :: rest))).toList ++ [')'] = item.text.toList ++ moreText rest := by
    induction rest generalizing item with
    | nil => simp [texts, moreText]
    | cons next rest ih =>
      have unfolded := ih next
      simp only [texts, moreText] at unfolded ⊢
      simp [← unfolded]
  cases rest with
  | nil => simp [text, restText]
  | cons next rest =>
    have several : (tuple (item :: next :: rest)).text =
        "(" ++ ", ".intercalate (texts (item :: next :: rest)) ++ ")" := by
      rw [text]
      intro single same
      cases same
    rw [several, restText, ← more]
    · simp
    · intro none
      cases none

theorem delimited_moreText (rest : List Literal) (r : List Char) : Delimited (moreText rest ++ r) := by
  cases rest <;> simp [Delimited, moreText, isDelimiter]

theorem delimited_restText (rest : List Literal) (r : List Char) : Delimited (restText rest ++ r) := by
  cases rest <;> simp [Delimited, restText, moreText, isDelimiter]

/-- The first character of a literal tells its type, and does not end a tuple. -/
theorem Plain.toList_text {a : Literal} (plain : a.Plain) :
    ∃ c rest, a.text.toList = c :: rest ∧ typeNameAt c = a.typeName ∧ c ≠ ')' := by
  cases plain with
  | none | ellipsis => exact ⟨_, _, rfl, rfl, by decide⟩
  | bool value => cases value <;> exact ⟨_, _, rfl, rfl, by decide⟩
  | str value => exact ⟨_, _, String.toList_ofList, rfl, by decide⟩
  | bytes value => exact ⟨_, _, String.toList_ofList, rfl, by decide⟩
  | @tuple items all =>
    cases items with
    | nil => exact ⟨_, _, rfl, rfl, by decide⟩
    | cons item rest => exact ⟨_, _, toList_text_tuple item rest, rfl, by decide⟩
  | int value =>
    cases digits : (toString value).toList with
    | nil => exact absurd digits (intText_ne_nil value)
    | cons c rest =>
      have here : c ∈ (toString value).toList := digits ▸ List.mem_cons_self
      refine ⟨c, rest, digits, ?_, ?_⟩
      · unfold typeNameAt
        split
        case h_8 => rfl
        all_goals exact absurd here (not_mem_intText (by decide) (by decide) value)
      · rintro rfl
        exact not_mem_intText (by decide) (by decide) value here

/-! ## Literals from their texts -/

variable {a b : Literal} {as bs : List Literal} {r s : List Char}

/-- A literal is told, up to a delimiter, by any text that it starts. -/
def Told (a : Literal) : Prop := ∀ b, b.Plain → ∀ r s, Delimited r → Delimited s →
  a.text.toList ++ r = b.text.toList ++ s → a = b ∧ r = s

theorem typeName_eq_of_append (ha : a.Plain) (hb : b.Plain)
    (h : a.text.toList ++ r = b.text.toList ++ s) : a.typeName = b.typeName := by
  obtain ⟨c, v, textA, typeA, -⟩ := ha.toList_text
  obtain ⟨d, w, textB, typeB, -⟩ := hb.toList_text
  rw [textA, textB] at h
  rw [← typeA, ← typeB, (List.cons.inj h).1]

theorem moreText_append_inj (told : ∀ a ∈ as, a.Told) (plain : ∀ b ∈ bs, b.Plain)
    (h : moreText as ++ r = moreText bs ++ s) : as = bs ∧ r = s := by
  induction as generalizing bs with
  | nil =>
    cases bs with
    | nil => exact ⟨rfl, (List.cons.inj h).2⟩
    | cons b bs => exact absurd (List.cons.inj h).1 (by decide)
  | cons a as ih =>
    cases bs with
    | nil => exact absurd (List.cons.inj h).1 (by decide)
    | cons b bs =>
      obtain ⟨first, others⟩ := List.forall_mem_cons.mp told
      obtain ⟨plainFirst, plainOthers⟩ := List.forall_mem_cons.mp plain
      have items : a.text.toList ++ (moreText as ++ r) = b.text.toList ++ (moreText bs ++ s) := by
        simpa [moreText] using h
      obtain ⟨same, rest⟩ :=
        first b plainFirst _ _ (delimited_moreText as r) (delimited_moreText bs s) items
      obtain ⟨more, rest⟩ := ih others plainOthers rest
      exact ⟨congrArg₂ List.cons same more, rest⟩

theorem restText_append_inj (told : ∀ a ∈ as, a.Told) (plain : ∀ b ∈ bs, b.Plain)
    (h : restText as ++ r = restText bs ++ s) : as = bs ∧ r = s := by
  cases as with
  | nil =>
    cases bs with
    | nil => exact ⟨rfl, by simpa [restText] using h⟩
    | cons b bs => simp [restText, moreText] at h
  | cons a as =>
    cases bs with
    | nil => simp [restText, moreText] at h
    | cons b bs => exact moreText_append_inj told plain h

/-- A tuple is told by its items, the first of which stands behind the parenthesis. -/
theorem tuple_append_inj (told : ∀ a ∈ as, a.Told) (plainA : ∀ a ∈ as, a.Plain) (plainB : ∀ b ∈ bs, b.Plain)
    (h : (tuple as).text.toList ++ r = (tuple bs).text.toList ++ s) : as = bs ∧ r = s := by
  have empty : (tuple []).text.toList = ['(', ')'] := rfl
  cases as with
  | nil =>
    cases bs with
    | nil => exact ⟨rfl, List.append_cancel_left h⟩
    | cons b bs =>
      obtain ⟨c, rest, text, -, other⟩ := (plainB b List.mem_cons_self).toList_text
      rw [empty, toList_text_tuple, text] at h
      exact absurd (List.cons.inj (List.cons.inj h).2).1.symm other
  | cons a as =>
    obtain ⟨first, others⟩ := List.forall_mem_cons.mp told
    cases bs with
    | nil =>
      obtain ⟨c, rest, text, -, other⟩ := (plainA a List.mem_cons_self).toList_text
      rw [empty, toList_text_tuple, text] at h
      exact absurd (List.cons.inj (List.cons.inj h).2).1 other
    | cons b bs =>
      obtain ⟨plainFirst, plainOthers⟩ := List.forall_mem_cons.mp plainB
      have items : a.text.toList ++ (restText as ++ r) = b.text.toList ++ (restText bs ++ s) := by
        rw [toList_text_tuple, toList_text_tuple] at h
        simpa using h
      obtain ⟨same, rest⟩ :=
        first b plainFirst _ _ (delimited_restText as r) (delimited_restText bs s) items
      obtain ⟨more, rest⟩ := restText_append_inj others plainOthers rest
      exact ⟨congrArg₂ List.cons same more, rest⟩

theorem isDelimiter_intText (n : Int) : ∀ c ∈ (toString n).toList, isDelimiter c = false := by
  intro c hc
  cases delimits : isDelimiter c with
  | false => rfl
  | true =>
    have mark : c = ',' ∨ c = ')' := by simpa [isDelimiter] using delimits
    rcases mark with rfl | rfl <;> exact absurd hc (not_mem_intText (by decide) (by decide) n)

/-- Literals without doubles and code objects are told by the texts that they start. The types are the same,
as the first characters are, and each type has its own way to end a text. -/
theorem Plain.told (plain : a.Plain) : a.Told := by
  intro b hb r s hr hs h
  -- in each case the type leaves one way to make up the other literal
  induction plain generalizing b r s with
  | none | ellipsis =>
    have type := typeName_eq_of_append (by constructor) hb h
    cases hb <;> simp [typeName] at type
    exact ⟨rfl, List.append_cancel_left h⟩
  | bool value =>
    have type := typeName_eq_of_append (.bool value) hb h
    cases hb <;> simp [typeName] at type
    rename_i other
    cases value <;> cases other <;> simp [text] at h ⊢ <;> exact h
  | int value =>
    have type := typeName_eq_of_append (.int value) hb h
    cases hb <;> simp [typeName] at type
    rename_i other
    obtain ⟨same, rest⟩ :=
      append_inj_of_delimited (isDelimiter_intText value) (isDelimiter_intText other) hr hs h
    exact ⟨congrArg Literal.int (intText_injective (String.toList_injective same)), rest⟩
  | str value =>
    have type := typeName_eq_of_append (.str value) hb h
    cases hb <;> simp [typeName] at type
    rename_i other
    have quoted : value.toList.flatMap quotedChar ++ '\'' :: r =
        other.toList.flatMap quotedChar ++ '\'' :: s := by
      simpa [text] using h
    obtain ⟨same, rest⟩ := prefixCode_quotedChar.flatMap_append_inj quoted
    exact ⟨congrArg Literal.str (String.toList_injective same), rest⟩
  | bytes value =>
    have type := typeName_eq_of_append (.bytes value) hb h
    cases hb <;> simp [typeName] at type
    rename_i other
    have quoted : value.flatMap quotedByte ++ '\'' :: r = other.flatMap quotedByte ++ '\'' :: s := by
      simpa [text] using h
    obtain ⟨same, rest⟩ := prefixCode_quotedByte.flatMap_append_inj quoted
    exact ⟨congrArg Literal.bytes same, rest⟩
  | tuple all ih =>
    have type := typeName_eq_of_append (.tuple all) hb h
    cases hb <;> simp [typeName] at type
    rename_i others plain
    obtain ⟨same, rest⟩ := tuple_append_inj ih all plain h
    exact ⟨congrArg Literal.tuple same, rest⟩

theorem Plain.text_inj (ha : a.Plain) (hb : b.Plain) (h : a.text = b.text) : a = b := by
  have whole : a.text.toList ++ [] = b.text.toList ++ [] := by rw [h]
  exact (ha.told b hb [] [] nofun nofun whole).1

end Literal

/-! ## The log -/

/-- Different findings that are not in the log yet are appended to it. -/
theorem Log.reporting_of_new {log : Log} {position : Position} {kinds : List FindingKind}
    (distinct : kinds.Nodup) (new : ∀ kind ∈ kinds, ⟨kind, position⟩ ∉ log) :
    log.reporting position kinds = log ++ kinds.map (⟨·, position⟩) := by
  induction kinds generalizing log with
  | nil => exact (List.append_nil log).symm
  | cons kind rest ih =>
    obtain ⟨other, distinct⟩ := List.nodup_cons.mp distinct
    obtain ⟨first, others⟩ := List.forall_mem_cons.mp new
    have later : ∀ next ∈ rest, ⟨next, position⟩ ∉ log ++ [⟨kind, position⟩] := by
      intro next member known
      rcases List.mem_append.mp known with old | here
      · exact others next member old
      · cases List.mem_singleton.mp here
        exact other member
    have appended : log.record ⟨kind, position⟩ = log ++ [⟨kind, position⟩] := if_neg first
    rw [Log.reporting, List.foldl_cons, appended, ← Log.reporting, ih distinct later, List.map_cons,
      List.append_assoc, List.singleton_append]

/-! ## Calls of literals -/

namespace Literal

variable {a b : Literal} {literals : List Literal}

/-- What is reported of a literal that is called. -/
def refusal (l : Literal) : FindingKind := .notCallable l.text

theorem map_refusal (heap : Heap) (literals : List Literal) :
    (literals.map Value.literal).map (Value.refusal heap) = literals.map refusal := by
  rw [List.map_map]
  rfl

theorem Plain.message_refusal_inj (ha : a.Plain) (hb : b.Plain)
    (h : a.refusal.message = b.refusal.message) : a = b :=
  ha.text_inj hb ((String.append_left_inj _).mp h)

theorem Plain.refusal_inj (ha : a.Plain) (hb : b.Plain) (h : a.refusal = b.refusal) : a = b :=
  ha.message_refusal_inj hb (congrArg FindingKind.message h)

theorem nodup_refusals (plain : ∀ l ∈ literals, l.Plain) (distinct : literals.Nodup) :
    (literals.map refusal).Nodup :=
  (List.nodup_map_iff_inj_on distinct).mpr fun _ ha _ hb h => (plain _ ha).refusal_inj (plain _ hb) h

/-- Different literals are held each by itself. -/
theorem values_ofValues (some : literals ≠ []) (distinct : literals.Nodup) :
    (Variable.ofValues (literals.map .literal)).values = literals.map .literal := by
  have apart : (literals.map Value.literal).Pairwise fun a b => a.same b = false := by
    rw [List.pairwise_map]
    exact distinct.imp fun ne => by simpa [Value.same] using ne
  rw [Variable.values_ofValues, if_neg (mt List.map_eq_nil_iff.mp some), Value.addNew_eq_gatherBy,
    gatherBy_nil_of_pairwise apart]

/-- Literals without doubles and code objects have different texts and are reported by different messages.
So when several of them are called, one by one or joined in a union, each has a finding of its own in the
log, unless it was reported there before. -/
theorem texts_unambiguous :
    (∀ a b : Literal, a.Plain → b.Plain →
      (a.text = b.text ↔ a = b) ∧ (a.refusal.message = b.refusal.message ↔ a = b)) ∧
    ∀ literals : List Literal, literals ≠ [] → (∀ l ∈ literals, l.Plain) → literals.Nodup →
      ∀ (ev : Evaluator) (args : Args) (ctx : Context),
        (∀ l ∈ literals, ⟨l.refusal, ctx.position⟩ ∉ ctx.log) →
        let after := { ctx with log := ctx.log ++ literals.map fun l => ⟨l.refusal, ctx.position⟩ }
        callVariable ev (.ofValues (literals.map .literal)) args ctx = (.ok Value.any.var, after) ∧
        callValue ev args (.union (literals.map .literal)) ctx = (.ok Value.any.var, after) := by
  constructor
  · intro a b ha hb
    exact ⟨⟨ha.text_inj hb, congrArg text⟩,
      ⟨ha.message_refusal_inj hb, congrArg fun l : Literal => l.refusal.message⟩⟩
  · intro literals some plain distinct ev args ctx new after
    have refuse : ∀ a ∈ literals.map Value.literal, a.Refuses ctx.heap :=
      List.forall_mem_map.mpr fun l _ => Value.refuses_of_kind List.mem_cons_self
    have reported : ctx.reporting ((literals.map Value.literal).map (Value.refusal ctx.heap)) = after := by
      rw [map_refusal, Context.reporting, Log.reporting_of_new (nodup_refusals plain distinct)
        (List.forall_mem_map.mpr new), List.map_map]
      rfl
    constructor
    · have held : ∀ a ∈ (Variable.ofValues (literals.map .literal)).values, a.Refuses ctx.heap := by
        rwa [values_ofValues some distinct]
      rw [callVariable_of_refuses held, values_ofValues some distinct, reported]
    · rw [callValue, Step.bind_of_ok (callAll_of_refuses refuse), Variable.ofValues_any, reported]
      rfl

/-- Quotes and commas inside texts make no tuple, and what is escaped differs from what was written so. -/
theorem texts_unambiguous_of_quotes :
    let pair := tuple [.str "a", .str "b"]
    let single := tuple [.str "a', 'b"]
    let literals := [pair, single, .tuple [pair], .str pair.text, .bytes [0x27, 0x5c, 0xff], .str "\\xff"]
    let ctx := Context.new .standard
    let after := { ctx with log := literals.map fun l => ⟨l.refusal, ctx.position⟩ }
    pair.text ≠ single.text ∧ pair.refusal.message ≠ single.refusal.message ∧
      ∀ (ev : Evaluator) (args : Args),
        callVariable ev (.ofValues (literals.map .literal)) args ctx = (.ok Value.any.var, after) ∧
        callValue ev args (.union (literals.map .literal)) ctx = (.ok Value.any.var, after) := by
  intro pair single literals ctx after
  obtain ⟨texts, calls⟩ := texts_unambiguous
  have str : ∀ text, (Literal.str text).Plain := .str
  have plainPair : pair.Plain := .tuple (by simp [str])
  have plainSingle : single.Plain := .tuple (by simp [str])
  have plain : ∀ l ∈ literals, l.Plain := by
    simp [literals, plainPair, plainSingle, str, Plain.bytes, Plain.tuple]
  obtain ⟨apart, messages⟩ := texts pair single plainPair plainSingle
  have other : pair ≠ single := by decide
  exact ⟨mt apart.mp other, mt messages.mp other, fun ev args =>
    calls literals (List.cons_ne_nil _ _) plain (by decide) ev args ctx fun _ _ => List.not_mem_nil⟩

end Literal

end StubInference
