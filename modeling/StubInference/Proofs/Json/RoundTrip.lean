import StubInference.Json.Reader
import StubInference.Json.Writer
import StubInference.Proofs.Json.Numerals

/-!
# Reading what was written

The compact text of a tree is cut into the tokens of the tree, and those build the tree again. The
writer puts every part behind the text so far, so both halves are said of a text that a part was
appended to.

## Main definitions

* `Json.Legible` — no part of the tree is broken and its numbers read back
* `Json.tokens` — the tokens that write a tree
* `Json.Rests`, `Json.Ends` — where the scanner is behind a text

## Main results

* `Json.tokens?_compact` — the text of a tree has the tokens of the tree
* `Json.ofTokens?_tokens` — the tokens of a tree build it
* `Json.parse?_compact` — the text of a tree reads back as that tree
-/

namespace StubInference.Json

mutual
/-- No text or member name is broken, and every number reads back. -/
def Legible : Json → Prop
  | .null | .bool _ | .text _ => True
  | .number value => value.ReadsBack
  | .broken => False
  | .array items => LegibleItems items
  | .object members => LegibleMembers members

/-- Every item is legible. -/
def LegibleItems : List Json → Prop
  | [] => True
  | item :: rest => Legible item ∧ LegibleItems rest

/-- The value of every member is legible. -/
def LegibleMembers : List (String × Json) → Prop
  | [] => True
  | (_, value) :: rest => Legible value ∧ LegibleMembers rest
end

mutual
/-- The tokens that write a tree. -/
def tokens : Json → List Token
  | .null | .broken => [.word "null"]
  | .bool value => [.word (if value then "true" else "false")]
  | .number value => [.number value]
  | .text value => [.text (some value)]
  | .array items => .openBracket :: itemTokens true items ++ [.closeBracket]
  | .object members => .openBrace :: memberTokens true members ++ [.closeBrace]

/-- The tokens of items divided by commas. -/
def itemTokens (first : Bool) : List Json → List Token
  | [] => []
  | item :: rest => (if first then [] else [.comma]) ++ tokens item ++ itemTokens false rest

/-- The tokens of members divided by commas. -/
def memberTokens (first : Bool) : List (String × Json) → List Token
  | [] => []
  | (name, value) :: rest =>
    (if first then [] else [.comma]) ++ .text (some name) :: .colon :: tokens value ++
      memberTokens false rest
end

/-! ## Cutting the text -/

/-- Read characters one after the other. -/
def scanAll? (state : List Token × Mode) (chars : List Char) : Option (List Token × Mode) :=
  chars.foldlM (fun state c => scan? state.1 state.2 c) state

@[simp] theorem scanAll?_nil (state : List Token × Mode) : scanAll? state [] = some state := rfl

@[simp] theorem scanAll?_cons (state : List Token × Mode) (c : Char) (chars : List Char) :
    scanAll? state (c :: chars) = (scan? state.1 state.2 c).bind (scanAll? · chars) := rfl

theorem scanAll?_append (state : List Token × Mode) (as bs : List Char) :
    scanAll? state (as ++ bs) = (scanAll? state as).bind (scanAll? · bs) :=
  List.foldlM_append

theorem tokensFrom?_eq (tokens : List Token) (mode : Mode) (chars : List Char) :
    tokensFrom? tokens mode chars =
      (scanAll? (tokens, mode) chars).bind fun state =>
        (flush? state.1 state.2).map List.reverse := by
  induction chars generalizing tokens mode with
  | nil => rfl
  | cons c rest ih =>
    rw [tokensFrom?, scanAll?_cons]
    cases scan? tokens mode c with
    | none => rfl
    | some state => exact ih state.1 state.2

/-- Behind the text the scanner stands between two tokens, and has read these, the last first. -/
def Rests (text : String) (done : List Token) : Prop :=
  scanAll? ([], .between) text.toList = some (done, .between)

/-- Whether a character ends every word and every numeral. -/
def delimits (c : Char) : Bool := !inNumeral c && !('a' ≤ c && c ≤ 'z')

/-- Behind the text the scanner may be inside a word or a numeral. At its end, or where a delimiter
comes next, it has read these tokens. -/
def Ends (text : String) (done : List Token) : Prop :=
  ∃ before mode, scanAll? ([], .between) text.toList = some (before, mode) ∧
    flush? before mode = some done ∧ ∀ c, delimits c → scan? before mode c = start? done c

section Scanning

variable {text : String} {done : List Token}

theorem rests_nil : Rests "" [] := rfl

theorem Rests.ends (h : Rests text done) : Ends text done := ⟨done, .between, h, rfl, fun _ _ => rfl⟩

/-- A delimiter that is a token by itself. -/
theorem Ends.delimiter (h : Ends text done) {c : Char} {token : Token} (hc : delimits c)
    (start : start? done c = some (token :: done, .between)) {mark : String}
    (hmark : mark.toList = [c]) : Rests (text ++ mark) (token :: done) := by
  obtain ⟨before, mode, scanned, -, next⟩ := h
  simp [Rests, String.toList_append, scanAll?_append, scanned, hmark, next c hc, start]

theorem Ends.comma (h : Ends text done) : Rests (text ++ ",") (.comma :: done) :=
  h.delimiter (c := ',') rfl rfl rfl

theorem Ends.colon (h : Ends text done) : Rests (text ++ ":") (.colon :: done) :=
  h.delimiter (c := ':') rfl rfl rfl

theorem Ends.openBracket (h : Ends text done) : Rests (text ++ "[") (.openBracket :: done) :=
  h.delimiter (c := '[') rfl rfl rfl

theorem Ends.closeBracket (h : Ends text done) : Rests (text ++ "]") (.closeBracket :: done) :=
  h.delimiter (c := ']') rfl rfl rfl

theorem Ends.openBrace (h : Ends text done) : Rests (text ++ "\x7b") (.openBrace :: done) :=
  h.delimiter (c := '\x7b') rfl rfl rfl

theorem Ends.closeBrace (h : Ends text done) : Rests (text ++ "\x7d") (.closeBrace :: done) :=
  h.delimiter (c := '\x7d') rfl rfl rfl

end Scanning

/-! ### Words and numerals -/

theorem scanAll?_number (done : List Token) (soFar : List Char) {chars : List Char}
    (h : ∀ c ∈ chars, inNumeral c) :
    scanAll? (done, .number soFar) chars = some (done, .number (chars.reverse ++ soFar)) := by
  induction chars generalizing soFar with
  | nil => rfl
  | cons c rest ih =>
    obtain ⟨numeral, rest_numeral⟩ := List.forall_mem_cons.mp h
    simp [scan?, numeral, ih _ rest_numeral]

variable {text : String} {done : List Token}

/-- A word whose letters the scanner takes one after the other. -/
theorem Rests.word (h : Rests text done) {name : String}
    (scanned : scanAll? (done, .between) name.toList = some (done, .word name.toList.reverse)) :
    Ends (text ++ name) (.word name :: done) := by
  refine ⟨done, .word name.toList.reverse, ?_, by simp [flush?], ?_⟩
  · simp [String.toList_append, scanAll?_append, show scanAll? _ _ = _ from h, scanned]
  · intro next delimiter
    simp only [delimits, Bool.and_eq_true, Bool.not_eq_true'] at delimiter
    simp [scan?, delimiter.2, flush?]

theorem start?_digit (done : List Token) {c : Char} (h : c.isDigit) :
    start? done c = some (done, .number [c]) := by
  -- each of the other characters that may start a token is no digit
  have other : ∀ d : Char, d.isDigit = false → c ≠ d := by
    rintro d not_digit rfl
    rw [not_digit] at h
    cases h
  have blank : isBlank c = false := by
    simp [isBlank, other ' ' rfl, other '\n' rfl, other '\t' rfl, other '\r' rfl]
  simp [start?, blank, other '[' rfl, other ']' rfl, other '\x7b' rfl, other '\x7d' rfl,
    other ',' rfl, other ':' rfl, other '"' rfl, h]

theorem Rests.number (h : Rests text done) {value : Number} (back : value.ReadsBack) :
    Ends (text ++ value.text) (.number value :: done) := by
  have numeral := Numeral.all_inNumeral_of_parse? back.isSome
  obtain ⟨c, rest, chars, first⟩ := Numeral.starts_of_parse? back.isSome
  have start : start? done c = some (done, .number [c]) := by
    rcases first with rfl | digit
    · rfl
    · exact start?_digit done digit
  have flushed : flush? done (.number (rest.reverse ++ [c])) = some (.number value :: done) := by
    have whole : (rest.reverse ++ [c]).reverse = value.text.toList := by simp [chars]
    simpa [flush?, whole, Function.comp_def] using congrArg (Option.map (.number · :: done)) back
  refine ⟨done, .number (rest.reverse ++ [c]), ?_, flushed, ?_⟩
  · rw [chars, List.forall_mem_cons] at numeral
    simp [String.toList_append, scanAll?_append, show scanAll? _ _ = _ from h, chars, scan?, start,
      scanAll?_number done [c] numeral.2]
  · intro next delimiter
    simp only [delimits, Bool.and_eq_true, Bool.not_eq_true'] at delimiter
    simp [scan?, delimiter.1, flushed]

/-! ### Texts -/

theorem hexDigit?_digitChar {d : Nat} (h : d < 16) : hexDigit? (Nat.digitChar d) = some d := by
  revert d
  decide

/-- Control characters have two hexadecimal digits, filled up with zeros. -/
theorem toList_hexText_control {n : Nat} (h : n < 0x20) :
    (hexText 4 n).toList = ['0', '0', Nat.digitChar (n / 16), Nat.digitChar (n % 16)] := by
  revert n
  decide

/-- An escape of four digits adds the character that it numbers. -/
theorem scanAll?_unit (done : List Token) (chars : List Char) {c : Char} (h : c.toNat < 0x20) :
    scanAll? (done, .text ⟨chars, false, none⟩) ("\\u" ++ hexText 4 c.toNat).toList =
      some (done, .text ⟨c :: chars, false, none⟩) := by
  have high := hexDigit?_digitChar (show c.toNat / 16 < 16 by omega)
  have low := hexDigit?_digitChar (show c.toNat % 16 < 16 by omega)
  have zero : hexDigit? '0' = some 0 := rfl
  have code : 16 * (c.toNat / 16) + c.toNat % 16 = c.toNat := Nat.div_add_mod ..
  -- a control character is neither half of a surrogate pair
  have no_high : ¬ 0xD800 ≤ c.toNat := by omega
  have no_low : ¬ 0xDC00 ≤ c.toNat := by omega
  simp [String.toList_append, toList_hexText_control h, scan?, high, low, zero, code,
    Partial.pushUnit, Partial.push, no_high, no_low]

/-- What stands for a character inside quotes adds that character. -/
theorem scanAll?_quotedChar (done : List Token) (chars : List Char) (c : Char) :
    scanAll? (done, .text ⟨chars, false, none⟩) (quotedChar c).toList =
      some (done, .text ⟨c :: chars, false, none⟩) := by
  by_cases short : c ∈ ['"', '\\', '\n', '\r', '\t', '\x08', '\x0c']
  · simp only [List.mem_cons, List.not_mem_nil, or_false] at short
    rcases short with rfl | rfl | rfl | rfl | rfl | rfl | rfl <;> rfl
  · simp only [List.mem_cons, List.not_mem_nil, or_false, not_or] at short
    by_cases control : c.toNat < 0x20
    · have escape : quotedChar c = "\\u" ++ hexText 4 c.toNat := by simp [quotedChar, short, control]
      rw [escape]
      exact scanAll?_unit done chars control
    · simp [quotedChar, short, control, scan?, Partial.push]

theorem toList_quoted (s : String) :
    (quoted s).toList = '"' :: (s.toList.flatMap fun c => (quotedChar c).toList) ++ ['"'] := by
  have body : ∀ (text : String) (chars : List Char),
      (chars.foldl (fun text c => text ++ quotedChar c) text).toList =
        text.toList ++ chars.flatMap fun c => (quotedChar c).toList := by
    intro text chars
    induction chars generalizing text with
    | nil => simp
    | cons c rest ih => simp [ih, String.toList_append]
  simp [quoted, String.toList_append, body]

theorem scanAll?_quotedChars (done : List Token) (before chars : List Char) :
    scanAll? (done, .text ⟨before, false, none⟩) (chars.flatMap fun c => (quotedChar c).toList) =
      some (done, .text ⟨chars.reverse ++ before, false, none⟩) := by
  induction chars generalizing before with
  | nil => rfl
  | cons c rest ih => simp [scanAll?_append, scanAll?_quotedChar, ih]

theorem Rests.quoted (h : Rests text done) (s : String) :
    Rests (text ++ quoted s) (.text (some s) :: done) := by
  have start : start? done '"' = some (done, .text ⟨[], false, none⟩) := rfl
  simp [Rests, String.toList_append, scanAll?_append, show scanAll? _ _ = _ from h, toList_quoted,
    scan?, start, scanAll?_quotedChars, Partial.finish]

/-! ### Trees -/

theorem Rests.bool (h : Rests text done) (value : Bool) :
    Ends (text ++ if value then "true" else "false")
      (.word (if value then "true" else "false") :: done) := by
  cases value
  · exact h.word rfl
  · exact h.word rfl

mutual
/-- A tree put behind a text adds its tokens. -/
theorem Rests.appendTo : ∀ {text : String} {done : List Token} (tree : Json), tree.Legible →
    Rests text done → Ends (tree.appendTo text) (tree.tokens.reverse ++ done)
  | _, _, .null, _, h => h.word rfl
  | _, _, .bool value, _, h => h.bool value
  | _, _, .number _, back, h => h.number back
  | _, _, .text value, _, h => (h.quoted value).ends
  | _, _, .array items, legible, h => by
    -- brackets and braces are tokens by themselves, so the first item follows between two tokens
    have start := h.ends.openBracket
    simpa [Json.appendTo, tokens] using
      (Ends.appendItems items true legible start.ends fun _ => start).closeBracket.ends
  | _, _, .object members, legible, h => by
    have start := h.ends.openBrace
    simpa [Json.appendTo, tokens] using
      (Ends.appendMembers members true legible start.ends fun _ => start).closeBrace.ends

theorem Ends.appendItems : ∀ {text : String} {done : List Token} (items : List Json) (first : Bool),
    LegibleItems items → Ends text done → (first = true → Rests text done) →
    Ends (appendItems text first items) ((itemTokens first items).reverse ++ done)
  | _, _, [], _, _, h, _ => h
  | _, _, item :: rest, true, legible, _, h => by
    have ends := Rests.appendTo item legible.1 (h rfl)
    simpa [Json.appendItems, itemTokens] using
      Ends.appendItems rest false legible.2 ends (by simp)
  | _, _, item :: rest, false, legible, h, _ => by
    have ends := Rests.appendTo item legible.1 h.comma
    simpa [Json.appendItems, itemTokens] using
      Ends.appendItems rest false legible.2 ends (by simp)

theorem Ends.appendMembers : ∀ {text : String} {done : List Token}
    (members : List (String × Json)) (first : Bool), LegibleMembers members → Ends text done →
    (first = true → Rests text done) →
    Ends (appendMembers text first members) ((memberTokens first members).reverse ++ done)
  | _, _, [], _, _, h, _ => h
  | _, _, (name, value) :: rest, true, legible, _, h => by
    have ends := Rests.appendTo value legible.1 ((h rfl).quoted name).ends.colon
    simpa [Json.appendMembers, memberTokens] using
      Ends.appendMembers rest false legible.2 ends (by simp)
  | _, _, (name, value) :: rest, false, legible, h, _ => by
    have ends := Rests.appendTo value legible.1 (h.comma.quoted name).ends.colon
    simpa [Json.appendMembers, memberTokens] using
      Ends.appendMembers rest false legible.2 ends (by simp)
end

/-- The text of a tree is cut into the tokens of the tree. -/
theorem tokens?_compact {tree : Json} (h : tree.Legible) : tokens? tree.compact = some tree.tokens := by
  obtain ⟨before, mode, scanned, flushed, -⟩ := Rests.appendTo tree h rests_nil
  simp [tokens?, tokensFrom?_eq, compact, scanned, flushed]

/-! ## Building the tree -/

/-- Put a finished value into what is open and read the tokens from there. -/
def placeAndRead? (value : Json) (stack : List Open) (tokens : List Token) : Option Json :=
  (place value stack).bind fun state => readFrom? state.1 state.2 tokens

theorem readFrom?_cons (stack : List Open) (expecting : Expecting) (token : Token)
    (rest : List Token) :
    readFrom? stack expecting (token :: rest) =
      (feed? stack expecting token).bind fun state => readFrom? state.1 state.2 rest := by
  rw [readFrom?]
  cases feed? stack expecting token <;> rfl

/-- Members whose names are all there. -/
def named (members : List (String × Json)) : List (Option String × Json) :=
  members.map fun entry => (some entry.1, entry.2)

theorem placeAndRead?_item (item : Json) (before : List Json) (stack : List Open)
    (tokens : List Token) :
    placeAndRead? item (.array before :: stack) tokens =
      readFrom? (.array (item :: before) :: stack) .commaOrClose tokens := rfl

theorem placeAndRead?_member (name : String) (value : Json) (before : List (String × Json))
    (stack : List Open) (tokens : List Token) :
    placeAndRead? value (.member (some name) :: .object (named before) :: stack) tokens =
      readFrom? (.object (named ((name, value) :: before)) :: stack) .commaOrClose tokens := rfl

theorem mapM_named {f : Option String × Json → Option (String × Json)}
    (h : ∀ name value, f (some name, value) = some (name, value))
    (members : List (String × Json)) : (named members).mapM f = some members := by
  induction members with
  | nil => rfl
  | cons entry rest ih => simp_all [named]

theorem ofMembers_named (members : List (String × Json)) :
    ofMembers (named members) = .object members := by
  rw [ofMembers, mapM_named fun _ _ => rfl]

/-- A token that starts a value does so also where the array may still be closed. -/
theorem feed?_value (stack : List Open) {expecting : Expecting} {token : Token}
    (h : expecting = .value ∨ expecting = .valueOrClose) (opens : token ≠ .closeBracket) :
    feed? stack expecting token = beginValue? stack token := by
  rcases h with rfl | rfl
  · rfl
  · cases token <;> first | rfl | contradiction

theorem readFrom?_scalar {stack : List Open} {expecting : Expecting} {token : Token} {value : Json}
    (h : expecting = .value ∨ expecting = .valueOrClose) (rest : List Token)
    (scalar : token.scalar? = some value) :
    readFrom? stack expecting (token :: rest) = placeAndRead? value stack rest := by
  have begins : beginValue? stack token = place value stack := by
    cases token <;> simp_all [beginValue?, Token.scalar?]
  rw [readFrom?_cons, feed?_value stack h (by rintro rfl; cases scalar), begins, placeAndRead?]

mutual
/-- Where a value may come, the tokens of a tree put that tree into what is open. -/
theorem readFrom?_tokens : ∀ (tree : Json), tree.Legible → ∀ (stack : List Open)
    (expecting : Expecting), (expecting = .value ∨ expecting = .valueOrClose) →
    ∀ rest, readFrom? stack expecting (tree.tokens ++ rest) = placeAndRead? tree stack rest
  | .null, _, _, _, h, rest => readFrom?_scalar h rest rfl
  | .bool true, _, _, _, h, rest => readFrom?_scalar h rest rfl
  | .bool false, _, _, _, h, rest => readFrom?_scalar h rest rfl
  | .number _, _, _, _, h, rest => readFrom?_scalar h rest rfl
  | .text _, _, _, _, h, rest => readFrom?_scalar h rest rfl
  | .array items, legible, stack, expecting, h, rest => by
    have opened : feed? stack expecting .openBracket = some (.array [] :: stack, .valueOrClose) :=
      feed?_value stack h (by simp)
    simpa [tokens, readFrom?_cons, opened] using
      readFrom?_itemTokens items legible stack [] true rest
  | .object members, legible, stack, expecting, h, rest => by
    have opened : feed? stack expecting .openBrace = some (.object [] :: stack, .keyOrClose) :=
      feed?_value stack h (by simp)
    simpa [tokens, readFrom?_cons, opened, named] using
      readFrom?_memberTokens members legible stack [] true rest

/-- The tokens of items and a closing bracket finish an array that holds some items already. -/
theorem readFrom?_itemTokens : ∀ (items : List Json), LegibleItems items → ∀ (stack : List Open)
    (before : List Json) (first : Bool) (rest : List Token),
    readFrom? (.array before :: stack) (if first then .valueOrClose else .commaOrClose)
        (itemTokens first items ++ .closeBracket :: rest) =
      placeAndRead? (.array (before.reverse ++ items)) stack rest
  | [], _, stack, before, first, rest => by
    cases first <;> simp [itemTokens, readFrom?_cons, feed?, close?, placeAndRead?]
  | item :: items, legible, stack, before, first, rest => by
    -- the first item may come instead of a bracket, a later one comes behind a comma
    have value := fun expecting h => readFrom?_tokens item legible.1 (.array before :: stack)
      expecting h (itemTokens false items ++ .closeBracket :: rest)
    have more := readFrom?_itemTokens items legible.2 stack (item :: before) false rest
    cases first
    · simpa [itemTokens, readFrom?_cons, feed?, value, placeAndRead?_item] using more
    · simpa [itemTokens, value, placeAndRead?_item] using more

/-- The tokens of members and a closing brace finish an object that holds some members already. -/
theorem readFrom?_memberTokens : ∀ (members : List (String × Json)), LegibleMembers members →
    ∀ (stack : List Open) (before : List (String × Json)) (first : Bool) (rest : List Token),
    readFrom? (.object (named before) :: stack) (if first then .keyOrClose else .commaOrClose)
        (memberTokens first members ++ .closeBrace :: rest) =
      placeAndRead? (.object (before.reverse ++ members)) stack rest
  | [], _, stack, before, first, rest => by
    have finished := ofMembers_named before.reverse
    cases first <;>
      simp_all [memberTokens, readFrom?_cons, feed?, close?, placeAndRead?, named]
  | (name, value) :: members, legible, stack, before, first, rest => by
    have member := readFrom?_tokens value legible.1
      (.member (some name) :: .object (named before) :: stack) .value (.inl rfl)
      (memberTokens false members ++ .closeBrace :: rest)
    have more := readFrom?_memberTokens members legible.2 stack ((name, value) :: before) false rest
    cases first <;>
      simpa [memberTokens, readFrom?_cons, feed?, member, placeAndRead?_member] using more
end

/-- The tokens of a tree build it. -/
theorem ofTokens?_tokens {tree : Json} (h : tree.Legible) : ofTokens? tree.tokens = some tree := by
  have whole := readFrom?_tokens tree h [] .value (.inl rfl) []
  rw [List.append_nil] at whole
  exact whole

/-- The text of a tree reads back as that tree. -/
theorem parse?_compact {tree : Json} (h : tree.Legible) : parse? tree.compact = some tree := by
  rw [parse?, tokens?_compact h, Option.bind_some, ofTokens?_tokens h]

end StubInference.Json
