import Mathlib.Data.List.Forall2
import StubInference.Export
import StubInference.Stub.Printer

/-!
# What a parameter list tells

A parameter list is printed with markers between the kinds of its parameters. The types in it have
commas of their own, but only inside of brackets, and no equals sign. So a reader that ignores what is
in brackets finds the parts of the list between its commas, tells each part by its first character and
puts the parameters together again. It finds the name, the kind and the default of every parameter,
whatever the types are, and signatures with one text have one layout.

## Main definitions

* `Stub.Signature.Layout` — what a signature says apart from its types
* `Stub.readLayout` — the reader, on top of `Stub.unbracketed` and `Stub.Mark.ofPart?`
* `Stub.InOrder`, `Stub.Signature.Legible` — parameters in the order of their kinds, and signatures
  whose names are identifiers

## Main results

* `Stub.inOrder_declareParameters` — a declared function has its parameters in order
* `Stub.readLayout_parameterText` — the reader finds the layout
* `Stub.Signature.layout_eq_of_parameterText` — signatures with the same text have the same layout
-/

namespace StubInference.Stub

/-! ## Names -/

/-- A character of an identifier. Any character beyond ASCII counts as one. -/
def isNameChar (c : Char) : Bool := c.isAlphanum || c = '_' || 128 ≤ c.toNat

/-- A text of characters of identifiers. -/
def IsIdentifier (name : String) : Prop := name ≠ "" ∧ name.toList.all isNameChar

instance (name : String) : Decidable (IsIdentifier name) :=
  inferInstanceAs (Decidable (_ ∧ _))

theorem IsIdentifier.isNameChar {name : String} (h : IsIdentifier name) :
    ∀ c ∈ name.toList, isNameChar c := List.all_eq_true.mp h.2

/-- Identifiers with dots between them. -/
def IsDotted (name : String) : Prop :=
  ∃ parts, parts ≠ [] ∧ (∀ part ∈ parts, IsIdentifier part) ∧ name = ".".intercalate parts

mutual
/-- The classes that a type mentions. -/
def TypeExpr.classNames : TypeExpr → List String
  | .anything | .nothing => []
  | .named name => [name]
  | .generic base parameters => base :: classNamesOf parameters
  | .callable result => result.classNames
  | .union members => classNamesOf members

/-- The classes that several types mention. -/
def TypeExpr.classNamesOf : List TypeExpr → List String
  | [] => []
  | ty :: rest => ty.classNames ++ classNamesOf rest
end

/-! ## Brackets -/

/-- A text without its brackets and what is in them. -/
def unbracketed : (depth : Nat) → List Char → List Char
  | _, [] => []
  | depth, c :: rest =>
    if c = '[' then unbracketed (depth + 1) rest
    else if c = ']' then unbracketed (depth - 1) rest
    else if depth = 0 then c :: unbracketed 0 rest
    else unbracketed depth rest

/-- A text whose brackets match and that has only certain characters outside of them. -/
structure Shows (allowed : Char → Bool) (text : List Char) : Prop where
  outside : ∀ rest, unbracketed 0 (text ++ rest) = unbracketed 0 text ++ unbracketed 0 rest
  inside : ∀ depth rest, unbracketed (depth + 1) (text ++ rest) = unbracketed (depth + 1) rest
  allowed : ∀ c ∈ unbracketed 0 text, allowed c

namespace Shows

variable {allowed wider : Char → Bool} {text : List Char}

/-- A text without brackets is shown as it is. -/
theorem unbracketed_of_plain (plain : ∀ c ∈ text, c ≠ '[' ∧ c ≠ ']') (rest : List Char) :
    unbracketed 0 (text ++ rest) = text ++ unbracketed 0 rest := by
  induction text with
  | nil => rfl
  | cons c text ih =>
    obtain ⟨⟨opening, closing⟩, plain⟩ := List.forall_mem_cons.mp plain
    rw [List.cons_append, unbracketed, if_neg opening, if_neg closing, if_pos rfl, ih plain]
    rfl

theorem of_plain (plain : ∀ c ∈ text, c ≠ '[' ∧ c ≠ ']') (all : ∀ c ∈ text, allowed c) :
    Shows allowed text := by
  have shown : unbracketed 0 text = text := by
    simpa [unbracketed] using unbracketed_of_plain plain []
  refine ⟨fun rest => ?_, fun depth rest => ?_, by rwa [shown]⟩
  · rw [unbracketed_of_plain plain, shown]
  · -- in brackets the same characters are passed over
    clear all shown
    induction text with
    | nil => rfl
    | cons c text ih =>
      obtain ⟨⟨opening, closing⟩, plain⟩ := List.forall_mem_cons.mp plain
      rw [List.cons_append, unbracketed, if_neg opening, if_neg closing,
        if_neg (Nat.succ_ne_zero _), ih plain]

/-- A text without brackets, by inspection. -/
theorem of_all (h : text.all fun c => c != '[' && c != ']' && allowed c) : Shows allowed text := by
  simp only [List.all_eq_true, Bool.and_eq_true, bne_iff_ne] at h
  exact of_plain (fun c hc => (h c hc).1) fun c hc => (h c hc).2

theorem mono (h : Shows allowed text) (imp : ∀ c, allowed c → wider c) : Shows wider text :=
  ⟨h.outside, h.inside, fun c hc => imp c (h.allowed c hc)⟩

theorem append {more : List Char} (h : Shows allowed text) (h' : Shows allowed more) :
    Shows allowed (text ++ more) where
  outside rest := by rw [List.append_assoc, h.outside, h'.outside, h.outside, List.append_assoc]
  inside depth rest := by rw [List.append_assoc, h.inside, h'.inside]
  allowed := by
    rw [h.outside, List.forall_mem_append]
    exact ⟨h.allowed, h'.allowed⟩

/-- Nothing is shown of what is in brackets. -/
theorem bracket (h : Shows wider text) : Shows allowed ('[' :: (text ++ [']'])) where
  outside rest := by simp [unbracketed, h.inside]
  inside depth rest := by simp [unbracketed, h.inside]
  allowed := by simp [unbracketed, h.inside]

theorem intercalate {separator : List Char} {texts : List (List Char)} (h : Shows allowed separator)
    (all : ∀ text ∈ texts, Shows allowed text) : Shows allowed (separator.intercalate texts) := by
  induction texts with
  | nil => exact of_all rfl
  | cons text texts ih =>
    obtain ⟨first, all⟩ := List.forall_mem_cons.mp all
    cases texts with
    | nil => rwa [List.intercalate_singleton]
    | cons next texts =>
      rw [List.intercalate_cons_cons]
      exact (first.append h).append (ih all)

end Shows

/-! ## Types -/

/-- What holds of all characters of a separator and of texts holds of those of the texts joined. -/
theorem forall_mem_intercalate {p : Char → Prop} {separator : List Char} {texts : List (List Char)}
    (h : ∀ c ∈ separator, p c) (all : ∀ text ∈ texts, ∀ c ∈ text, p c) :
    ∀ c ∈ separator.intercalate texts, p c := by
  induction texts with
  | nil => exact nofun
  | cons text texts ih =>
    obtain ⟨first, all⟩ := List.forall_mem_cons.mp all
    cases texts with
    | nil => rwa [List.intercalate_singleton]
    | cons next texts =>
      simp only [List.intercalate_cons_cons, List.forall_mem_append]
      exact ⟨⟨first, h⟩, ih all⟩

/-- A character that the text of a type has outside of brackets. -/
def isTypeChar (c : Char) : Bool := isNameChar c || c = '.' || c = ' ' || c = '|'

theorem not_bracket_of_isTypeChar {c : Char} (h : isTypeChar c) : c ≠ '[' ∧ c ≠ ']' := by
  constructor <;> rintro rfl <;> exact absurd h (by decide)

theorem isTypeChar_of_isNameChar {c : Char} (h : isNameChar c) : isTypeChar c := by
  simp [isTypeChar, h]

theorem isTypeChar_of_isDotted {name : String} (h : IsDotted name) :
    ∀ c ∈ name.toList, isTypeChar c := by
  obtain ⟨parts, -, identifiers, rfl⟩ := h
  rw [String.toList_intercalate]
  refine forall_mem_intercalate (by simp [isTypeChar]) fun text htext c hc => ?_
  obtain ⟨part, hpart, rfl⟩ := List.mem_map.mp htext
  exact isTypeChar_of_isNameChar ((identifiers part hpart).isNameChar c hc)

/-- What is printed of a class name is part of the name, but for that of the class of `None`. -/
theorem mem_className {name : String} {c : Char} (h : c ∈ (className name).toList) :
    c ∈ name.toList ∨ c ∈ ['N', 'o', 'n', 'e'] := by
  have part {package short : String} (found : within? package name = some short)
      (hc : c ∈ short.toList) : c ∈ name.toList := by
    unfold within? at found
    dsimp only at found
    split at found
    case isTrue =>
      obtain rfl := Option.some.inj found
      rw [String.toList_ofList] at hc
      exact List.mem_of_mem_drop hc
    case isFalse => cases found
  unfold className at h
  split at h
  case isTrue => exact .inr h
  case isFalse =>
    split at h
    case h_1 short found => exact .inl (part found h)
    case h_2 =>
      cases found : within? "typing" name with
      | none => exact .inl (by simpa [found] using h)
      | some short => exact .inl (part found (by simpa [found] using h))

/-- A text of characters of types, none of them in brackets. -/
theorem Shows.of_typeChars {text : List Char} (all : ∀ c ∈ text, isTypeChar c) :
    Shows isTypeChar text :=
  .of_plain (fun c hc => not_bracket_of_isTypeChar (all c hc)) all

/-- There is no comma among the characters of types. -/
theorem Shows.no_comma {text : List Char} (h : Shows isTypeChar text) : Shows (· != ',') text :=
  h.mono fun c typed => by
    refine bne_iff_ne.mpr ?_
    rintro rfl
    exact absurd typed (by decide)

theorem IsIdentifier.shows {name : String} (h : IsIdentifier name) : Shows isTypeChar name.toList :=
  .of_typeChars fun c hc => isTypeChar_of_isNameChar (h.isNameChar c hc)

theorem shows_className {name : String} (h : IsDotted name) :
    Shows isTypeChar (className name).toList := by
  have none := List.all_eq_true.mp (by decide : ['N', 'o', 'n', 'e'].all isTypeChar)
  exact .of_typeChars fun c hc => (mem_className hc).elim (isTypeChar_of_isDotted h c) (none c)

/-- Types in brackets, with commas between them. -/
theorem shows_parameters {allowed : Char → Bool} {texts : List String}
    (h : ∀ text ∈ texts, Shows isTypeChar text.toList) :
    Shows allowed ('[' :: ((", ".intercalate texts).toList ++ [']'])) := by
  have comma : Shows (fun _ => true) [',', ' '] := .of_all (by decide)
  rw [String.toList_intercalate]
  refine (comma.intercalate fun text htext => ?_).bracket
  obtain ⟨source, hsource, rfl⟩ := List.mem_map.mp htext
  exact (h source hsource).mono fun _ _ => rfl

mutual
/-- The text of a type has its commas in brackets and no equals sign outside of them. -/
theorem TypeExpr.shows_text (ty : TypeExpr) (h : ∀ name ∈ ty.classNames, IsDotted name) :
    Shows isTypeChar ty.text.toList := by
  cases ty with
  | anything => exact .of_all (by decide)
  | nothing => exact .of_all (by decide)
  | named name => exact shows_className (h name (List.mem_singleton_self _))
  | generic base parameters =>
    rw [classNames, List.forall_mem_cons] at h
    -- the commas between the parameters are in brackets, and all that is shown is the class
    have inner : Shows isTypeChar _ := shows_parameters (shows_texts parameters h.2)
    simpa [text] using (shows_className h.1).append inner
  | callable result =>
    have start : Shows isTypeChar "Callable".toList := .of_all (by decide)
    -- the dots in front of the result count as a parameter
    have operands : ∀ operand ∈ ["...", result.text], Shows isTypeChar operand.toList :=
      List.forall_mem_cons.mpr ⟨.of_all (by decide),
        List.forall_mem_singleton.mpr (shows_text result h)⟩
    have inner : Shows isTypeChar _ := shows_parameters operands
    simpa [text] using start.append inner
  | union members =>
    have bar : Shows isTypeChar " | ".toList := .of_all (by decide)
    rw [text, String.toList_intercalate]
    refine bar.intercalate fun text htext => ?_
    obtain ⟨source, hsource, rfl⟩ := List.mem_map.mp htext
    exact shows_texts members h source hsource

theorem TypeExpr.shows_texts (types : List TypeExpr)
    (h : ∀ name ∈ classNamesOf types, IsDotted name) :
    ∀ text ∈ texts types, Shows isTypeChar text.toList := by
  cases types with
  | nil => exact nofun
  | cons ty rest =>
    rw [classNamesOf, List.forall_mem_append] at h
    rw [texts, List.forall_mem_cons]
    exact ⟨shows_text ty h.1, shows_texts rest h.2⟩
end

/-! ## The order of parameters -/

/-- The place of a kind among the parameters. -/
def ParameterKind.place : ParameterKind → Nat
  | .positionalOnly => 0
  | .regular => 1
  | .keywordOnly => 2

/-- Positional-only parameters come first and keyword-only ones last. -/
def InOrder (parameters : List Parameter) : Prop :=
  parameters.Pairwise fun a b => a.kind.place ≤ b.kind.place

instance (parameters : List Parameter) : Decidable (InOrder parameters) :=
  inferInstanceAs (Decidable (parameters.Pairwise _))

/-- All parameters are of one kind. -/
abbrev AllOf (kind : ParameterKind) (parameters : List Parameter) : Prop :=
  ∀ parameter ∈ parameters, parameter.kind = kind

theorem AllOf.inOrder {kind : ParameterKind} {parameters : List Parameter}
    (h : AllOf kind parameters) : InOrder parameters :=
  List.pairwise_of_forall_mem_list fun a ha b hb => by simp [h a ha, h b hb]

/-- Parameters in order are some of each kind. -/
theorem InOrder.blocks {parameters : List Parameter} (h : InOrder parameters) :
    ∃ positional regular keyword, parameters = positional ++ (regular ++ keyword) ∧
      AllOf .positionalOnly positional ∧ AllOf .regular regular ∧ AllOf .keywordOnly keyword := by
  induction parameters with
  | nil => exact ⟨[], [], [], rfl, nofun, nofun, nofun⟩
  | cons first rest ih =>
    obtain ⟨before, ordered⟩ := List.pairwise_cons.mp h
    obtain ⟨positional, regular, keyword, rfl, hp, hr, hk⟩ := ih ordered
    -- nothing of an earlier kind can follow
    have none {kind : ParameterKind} {block : List Parameter} (all : AllOf kind block)
        (within : block ⊆ positional ++ (regular ++ keyword))
        (earlier : kind.place < first.kind.place) : block = [] :=
      List.eq_nil_iff_forall_not_mem.mpr fun p member => by
        have := before p (within member)
        rw [all p member] at this
        omega
    cases kind : first.kind with
    | positionalOnly =>
      exact ⟨first :: positional, regular, keyword, rfl, List.forall_mem_cons.mpr ⟨kind, hp⟩, hr,
        hk⟩
    | regular =>
      obtain rfl := none hp (List.subset_append_left ..) (by rw [kind]; decide)
      exact ⟨[], first :: regular, keyword, rfl, nofun, List.forall_mem_cons.mpr ⟨kind, hr⟩, hk⟩
    | keywordOnly =>
      obtain rfl := none hp (List.subset_append_left ..) (by rw [kind]; decide)
      obtain rfl := none hr (by simp) (by rw [kind]; decide)
      exact ⟨[], [], first :: keyword, rfl, nofun, nofun, List.forall_mem_cons.mpr ⟨kind, hk⟩⟩

/-- A declared function has its parameters in order. -/
theorem inOrder_declareParameters (heap : Heap) (sig : StubInference.Signature) :
    InOrder (declareParameters heap sig) := by
  have all (kind : ParameterKind) (names : List String) :
      AllOf kind (names.map (declareParameter heap sig kind)) := by
    intro parameter member
    obtain ⟨name, -, rfl⟩ := List.mem_map.mp member
    rfl
  have apart {k k' : ParameterKind} (le : k.place ≤ k'.place) {names names' : List String} :
      ∀ a ∈ names.map (declareParameter heap sig k),
        ∀ b ∈ names'.map (declareParameter heap sig k'), a.kind.place ≤ b.kind.place :=
    fun a ha b hb => by rwa [all k names a ha, all k' names' b hb]
  refine List.pairwise_append.mpr ⟨List.pairwise_append.mpr ⟨(all _ _).inOrder, (all _ _).inOrder,
    apart (by decide)⟩, (all _ _).inOrder, fun a ha => ?_⟩
  rcases List.mem_append.mp ha with ha | ha
  · exact apart (by decide) a ha
  · exact apart (by decide) a ha

/-! ### The parts of a list -/

variable (starArgs : Option Parameter)

/-- The marker in front of keyword-only parameters: the parameter that takes the remaining
positional arguments, or a star if there is none. Without keyword-only parameters there is no star. -/
def starPart (starArgs : Option Parameter) (keyword : List Parameter) : List String :=
  match starArgs with
  | some parameter => ["*" ++ parameter.text]
  | none => if keyword = [] then [] else ["*"]

theorem parameterParts_starred {keyword : List Parameter} (h : AllOf .keywordOnly keyword) :
    parameterParts starArgs false true keyword = keyword.map Parameter.text := by
  induction keyword with
  | nil => rfl
  | cons first rest ih =>
    obtain ⟨kind, h⟩ := List.forall_mem_cons.mp h
    simp [parameterParts, kind, ih h]

theorem parameterParts_keyword (slash : Bool) {keyword : List Parameter}
    (h : AllOf .keywordOnly keyword) :
    parameterParts starArgs slash false keyword =
      (if slash then ["/"] else []) ++
        (starPart starArgs keyword ++ keyword.map Parameter.text) := by
  cases keyword with
  | nil => cases starArgs <;> simp [parameterParts, starPart]
  | cons first rest =>
    obtain ⟨kind, h⟩ := List.forall_mem_cons.mp h
    cases starArgs <;> simp [parameterParts, starPart, kind, parameterParts_starred _ h]

theorem parameterParts_regular (slash : Bool) {regular keyword : List Parameter}
    (hr : AllOf .regular regular) (hk : AllOf .keywordOnly keyword) :
    parameterParts starArgs slash false (regular ++ keyword) =
      (if slash then ["/"] else []) ++ (regular.map Parameter.text ++
        (starPart starArgs keyword ++ keyword.map Parameter.text)) := by
  induction regular generalizing slash with
  | nil => exact parameterParts_keyword starArgs slash hk
  | cons first rest ih =>
    obtain ⟨kind, hr⟩ := List.forall_mem_cons.mp hr
    simp [parameterParts, kind, ih false hr]

/-- The parts of a list of parameters in order. -/
theorem parameterParts_blocks (slash : Bool) {positional regular keyword : List Parameter}
    (hp : AllOf .positionalOnly positional) (hr : AllOf .regular regular)
    (hk : AllOf .keywordOnly keyword) :
    parameterParts starArgs slash false (positional ++ (regular ++ keyword)) =
      positional.map Parameter.text ++ ((if slash || positional ≠ [] then ["/"] else []) ++
        (regular.map Parameter.text ++
          (starPart starArgs keyword ++ keyword.map Parameter.text))) := by
  induction positional generalizing slash with
  | nil => simpa using parameterParts_regular starArgs slash hr hk
  | cons first rest ih =>
    -- from the first parameter on the slash is to come, behind whatever follows of its kind
    obtain ⟨kind, hp⟩ := List.forall_mem_cons.mp hp
    simp [parameterParts, kind, ih true hp]

/-! ## The reader -/

/-- What a part of a parameter list says. -/
inductive Mark where
  | slash
  | star (name : Option String)
  | starStar (name : String)
  | parameter (name : String) (optional : Bool)

/-- The name that a text starts with. -/
def nameOf (text : List Char) : String := String.ofList (text.takeWhile isNameChar)

/-- What a part says, told by its first character. -/
def Mark.ofPart? : List Char → Option Mark
  | [] => none
  -- the space behind a comma
  | ' ' :: part => ofPart? part
  | ['/'] => some .slash
  | ['*'] => some (.star none)
  | '*' :: '*' :: part => some (.starStar (nameOf part))
  | '*' :: part => some (.star (some (nameOf part)))
  | part => some (.parameter (nameOf part) (part.contains '='))

/-- What a signature says apart from its types. -/
structure Signature.Layout where
  parameters : List (String × ParameterKind × Bool)
  starArgs : Option String
  starStarArgs : Option String
  deriving DecidableEq

/-- The name, the kind and the default of a parameter. -/
def Parameter.entry (parameter : Parameter) : String × ParameterKind × Bool :=
  (parameter.name, parameter.kind, parameter.optional)

/-- The layout of a signature. -/
def Signature.layout (signature : Signature) : Layout where
  parameters := signature.parameters.map Parameter.entry
  starArgs := signature.starArgs.map (·.name)
  starStarArgs := signature.starStarArgs.map (·.name)

/-- The layout read so far, and whether a star has been read. -/
structure Reading where
  layout : Signature.Layout
  starred : Bool

/-- The kind of a parameter that is read, as long as no slash says otherwise. -/
def Reading.kind (reading : Reading) : ParameterKind :=
  if reading.starred then .keywordOnly else .regular

/-- More parameters at the end. -/
def Reading.add (reading : Reading) (entries : List (String × ParameterKind × Bool)) : Reading :=
  { reading with layout.parameters := reading.layout.parameters ++ entries }

@[simp] theorem Reading.kind_add (reading : Reading)
    (entries : List (String × ParameterKind × Bool)) : (reading.add entries).kind = reading.kind := rfl

@[simp] theorem Reading.add_add (reading : Reading)
    (entries more : List (String × ParameterKind × Bool)) :
    (reading.add entries).add more = reading.add (entries ++ more) := by
  simp [Reading.add]

/-- Read one mark. A slash makes positional-only parameters of all that have been read. -/
def Reading.next (reading : Reading) : Mark → Reading
  | .slash =>
    let positional := reading.layout.parameters.map fun (name, _, optional) =>
      (name, .positionalOnly, optional)
    { reading with layout.parameters := positional }
  | .star name => { layout := { reading.layout with starArgs := name }, starred := true }
  | .starStar name => { reading with layout.starStarArgs := some name }
  | .parameter name optional => reading.add [(name, reading.kind, optional)]

/-- Read marks. -/
def readMarks (marks : List Mark) : Signature.Layout :=
  (marks.foldl Reading.next ⟨⟨[], none, none⟩, false⟩).layout

/-- Read the layout off the text of a parameter list. -/
def readLayout (text : String) : Signature.Layout :=
  readMarks (((unbracketed 0 text.toList).splitOn ',').filterMap Mark.ofPart?)

/-! ### Reading marks -/

/-- What a parameter is read as. -/
def Parameter.mark (parameter : Parameter) : Mark := .parameter parameter.name parameter.optional

/-- The mark of the parameter that takes the remaining positional arguments, or of the bare star. -/
def starMark (starArgs : Option Parameter) (keyword : List Parameter) : List Mark :=
  match starArgs with
  | some parameter => [.star (some parameter.name)]
  | none => if keyword = [] then [] else [.star none]

/-- The marks of a list of parameters in order. -/
def marksOf (starArgs starStarArgs : Option Parameter)
    (positional regular keyword : List Parameter) : List Mark :=
  positional.map Parameter.mark ++ ((if positional ≠ [] then [.slash] else []) ++
    (regular.map Parameter.mark ++ (starMark starArgs keyword ++ (keyword.map Parameter.mark ++
      (starStarArgs.map fun parameter => .starStar parameter.name).toList))))

/-- Parameters are read as all of one kind. -/
theorem foldl_parameters (reading : Reading) (parameters : List Parameter) :
    (parameters.map Parameter.mark).foldl Reading.next reading =
      reading.add (parameters.map fun p => (p.name, reading.kind, p.optional)) := by
  induction parameters generalizing reading with
  | nil => simp [Reading.add]
  | cons first rest ih =>
    rw [List.map_cons, List.foldl_cons, Parameter.mark, Reading.next, ih, Reading.add_add,
      Reading.kind_add]
    rfl

theorem map_entry {kind : ParameterKind} {parameters : List Parameter} (h : AllOf kind parameters) :
    parameters.map Parameter.entry = parameters.map fun p => (p.name, kind, p.optional) :=
  List.map_congr_left fun p member => by rw [Parameter.entry, h p member]

/-- Parameters in front of the slash become positional-only when it is read. -/
theorem foldl_positional {positional : List Parameter} (h : AllOf .positionalOnly positional) :
    (if positional ≠ [] then [Mark.slash] else []).foldl Reading.next
      ((positional.map Parameter.mark).foldl Reading.next ⟨⟨[], none, none⟩, false⟩) =
        ⟨⟨positional.map Parameter.entry, none, none⟩, false⟩ := by
  rw [foldl_parameters, map_entry h]
  -- where there are none there is no slash, and nothing to change
  cases positional <;> simp [Reading.next, Reading.add]

/-- Parameters behind the star are keyword-only. -/
theorem foldl_keyword {keyword : List Parameter} (h : AllOf .keywordOnly keyword)
    (starArgs : Option Parameter) (known : List (String × ParameterKind × Bool)) :
    ∃ starred, (keyword.map Parameter.mark).foldl Reading.next
      ((starMark starArgs keyword).foldl Reading.next ⟨⟨known, none, none⟩, false⟩) =
        ⟨⟨known ++ keyword.map Parameter.entry, starArgs.map (·.name), none⟩, starred⟩ := by
  rw [foldl_parameters, map_entry h]
  -- only without either of both nothing is starred, and then there is nothing left to read
  cases starArgs <;> cases keyword <;> simp [starMark, Reading.next, Reading.add, Reading.kind]

/-- The marks of parameters in order are read as these parameters. -/
theorem readMarks_marksOf {starArgs starStarArgs : Option Parameter}
    {positional regular keyword : List Parameter} (hp : AllOf .positionalOnly positional)
    (hr : AllOf .regular regular) (hk : AllOf .keywordOnly keyword) :
    readMarks (marksOf starArgs starStarArgs positional regular keyword) =
      ⟨(positional ++ (regular ++ keyword)).map Parameter.entry, starArgs.map (·.name),
        starStarArgs.map (·.name)⟩ := by
  have named : (regular.map Parameter.mark).foldl Reading.next
      ⟨⟨positional.map Parameter.entry, none, none⟩, false⟩ =
        ⟨⟨(positional ++ regular).map Parameter.entry, none, none⟩, false⟩ := by
    rw [foldl_parameters, List.map_append, map_entry hr]
    rfl
  obtain ⟨starred, last⟩ := foldl_keyword hk starArgs ((positional ++ regular).map Parameter.entry)
  rw [readMarks, marksOf]
  simp only [List.foldl_append]
  rw [foldl_positional hp, named, last]
  cases starStarArgs <;> simp [Reading.next]

/-! ### Reading texts -/

/-- A parameter whose name is an identifier and whose type mentions dotted identifiers only. -/
structure Parameter.Legible (parameter : Parameter) : Prop where
  named : IsIdentifier parameter.name
  typed : ∀ name ∈ parameter.type.classNames, IsDotted name

theorem Parameter.Legible.untyped {name : String} (h : IsIdentifier name) (kind : ParameterKind)
    (optional : Bool) : Legible ⟨name, .anything, kind, optional⟩ :=
  ⟨h, by simp [TypeExpr.classNames]⟩

/-- What is printed of a parameter behind its name. -/
def Parameter.suffix (parameter : Parameter) : List Char :=
  (if parameter.annotated then ": ".toList ++ parameter.type.text.toList else []) ++
    if parameter.optional then (if parameter.annotated then " = ..." else "=...").toList else []

namespace Parameter

variable {parameter : Parameter}

theorem toList_text (parameter : Parameter) :
    parameter.text.toList = parameter.name.toList ++ parameter.suffix := by
  unfold text suffix
  dsimp only
  split <;> split <;> simp

theorem Legible.shows_suffix (h : parameter.Legible) : Shows (· != ',') parameter.suffix := by
  have colon : Shows (· != ',') ": ".toList := .of_all (by decide)
  have annotation := colon.append (parameter.type.shows_text h.typed).no_comma
  unfold suffix
  refine Shows.append ?_ ?_
  · split
    · exact annotation
    · exact .of_all rfl
  · split
    · split <;> exact .of_all (by decide)
    · exact .of_all rfl

theorem Legible.shows_text (h : parameter.Legible) : Shows (· != ',') parameter.text.toList := by
  rw [toList_text]
  exact h.named.shows.no_comma.append h.shows_suffix

/-- The name ends where it is printed to end. -/
theorem takeWhile_suffix (parameter : Parameter) :
    (unbracketed 0 parameter.suffix).takeWhile isNameChar = [] := by
  -- it goes on with a colon, a space or an equals sign
  unfold suffix
  cases parameter.annotated <;> cases parameter.optional <;> simp [unbracketed] <;> rfl

/-- There is an equals sign where there is a default. -/
theorem Legible.contains_suffix (h : parameter.Legible) :
    (unbracketed 0 parameter.suffix).contains '=' = parameter.optional := by
  have type := parameter.type.shows_text h.typed
  have absent : '=' ∉ unbracketed 0 parameter.type.text.toList := fun member =>
    absurd (type.allowed _ member) (by decide)
  unfold suffix
  cases parameter.annotated <;> cases parameter.optional <;>
    simp [unbracketed, type.outside, absent]

/-- What is read of a parameter, marked or not, begins with its name. -/
theorem Legible.unbracketed_text (h : parameter.Legible) :
    unbracketed 0 parameter.text.toList =
      parameter.name.toList ++ unbracketed 0 parameter.suffix := by
  rw [toList_text]
  exact Shows.unbracketed_of_plain
    (fun c hc => not_bracket_of_isTypeChar (isTypeChar_of_isNameChar (h.named.isNameChar c hc))) _

theorem Legible.nameOf_text (h : parameter.Legible) :
    nameOf (unbracketed 0 parameter.text.toList) = parameter.name := by
  rw [h.unbracketed_text, nameOf, List.takeWhile_append_of_pos h.named.isNameChar,
    takeWhile_suffix, List.append_nil, String.ofList_toList]

theorem Legible.contains_text (h : parameter.Legible) :
    (unbracketed 0 parameter.text.toList).contains '=' = parameter.optional := by
  have absent : '=' ∉ parameter.name.toList := fun member =>
    absurd (h.named.isNameChar _ member) (by decide)
  rw [h.unbracketed_text, ← h.contains_suffix]
  simp [absent]

end Parameter

/-- A text that is one part of a list and says this. -/
structure Prints (part : String) (mark : Mark) : Prop where
  shows : Shows (· != ',') part.toList
  read : Mark.ofPart? (unbracketed 0 part.toList) = some mark

/-- A text that begins with a character of names is a parameter. -/
theorem Mark.ofPart?_parameter {c : Char} {text : List Char} (h : isNameChar c) :
    ofPart? (c :: text) = some (.parameter (nameOf (c :: text)) ((c :: text).contains '=')) := by
  have other : c ≠ ' ' ∧ c ≠ '/' ∧ c ≠ '*' := by
    refine ⟨?_, ?_, ?_⟩ <;> rintro rfl <;> exact absurd h (by decide)
  unfold ofPart?
  split <;> simp_all

section Marks

variable {parameter : Parameter} (h : parameter.Legible)
include h

/-- The text of a parameter begins with a character of its name. -/
theorem exists_unbracketed_text :
    ∃ c rest, isNameChar c ∧ unbracketed 0 parameter.text.toList = c :: rest := by
  obtain ⟨c, name, starts⟩ := List.exists_cons_of_ne_nil
    (fun empty => h.named.1 (String.toList_eq_nil_iff.mp empty) : parameter.name.toList ≠ [])
  refine ⟨c, name ++ unbracketed 0 parameter.suffix,
    h.named.isNameChar c (starts ▸ List.mem_cons_self), ?_⟩
  rw [h.unbracketed_text, starts]
  rfl

theorem prints_text : Prints parameter.text parameter.mark := by
  obtain ⟨c, rest, first, begins⟩ := exists_unbracketed_text h
  refine ⟨h.shows_text, ?_⟩
  rw [begins, Mark.ofPart?_parameter first, ← begins, h.nameOf_text, h.contains_text]
  rfl

theorem prints_star : Prints ("*" ++ parameter.text) (.star (some parameter.name)) := by
  obtain ⟨c, rest, first, begins⟩ := exists_unbracketed_text h
  -- a second star would say something else
  have other : c ≠ '*' := by rintro rfl; exact absurd first (by decide)
  have star : Shows (· != ',') ['*'] := .of_all (by decide)
  refine ⟨by simpa using star.append h.shows_text, ?_⟩
  have starred : unbracketed 0 ("*" ++ parameter.text).toList = '*' :: c :: rest := by
    rw [← begins, String.toList_append]
    rfl
  rw [starred, Mark.ofPart?, ← begins, h.nameOf_text]
  all_goals simp [other]

theorem prints_starStar : Prints ("**" ++ parameter.text) (.starStar parameter.name) := by
  have stars : Shows (· != ',') ['*', '*'] := .of_all (by decide)
  refine ⟨by simpa using stars.append h.shows_text, ?_⟩
  have starred : unbracketed 0 ("**" ++ parameter.text).toList =
      '*' :: '*' :: unbracketed 0 parameter.text.toList := by
    rw [String.toList_append]
    rfl
  rw [starred, Mark.ofPart?, h.nameOf_text]

end Marks

/-! ### Reading a list -/

/-- A space at the front of a part says nothing. -/
theorem filterMap_splitOn_space (text : List Char) :
    ((' ' :: text).splitOn ',').filterMap Mark.ofPart? =
      (text.splitOn ',').filterMap Mark.ofPart? := by
  rw [List.splitOn_cons_eq_if_modifyHead, if_neg (by decide)]
  cases parts : text.splitOn ',' with
  | nil => rfl
  | cons part parts =>
    have space : Mark.ofPart? (' ' :: part) = Mark.ofPart? part := by rw [Mark.ofPart?]
    rw [List.modifyHead_cons, List.filterMap_cons, List.filterMap_cons, space]

/-- What the parts of a list say is found between its commas. -/
theorem filterMap_splitOn_intercalate {parts : List String} {marks : List Mark}
    (h : List.Forall₂ Prints parts marks) :
    ((unbracketed 0 (", ".intercalate parts).toList).splitOn ',').filterMap Mark.ofPart? =
      marks := by
  induction h with
  | nil => rfl
  | @cons part mark parts marks first rest ih =>
    -- so the first comma outside of brackets is the one behind the part
    have absent : ',' ∉ unbracketed 0 part.toList := fun member =>
      absurd (first.shows.allowed _ member) (by decide)
    cases rest with
    | nil =>
      rw [String.intercalate_singleton, List.splitOn_eq_singleton absent, List.filterMap_cons,
        first.read]
      rfl
    | @cons next _ parts _ _ _ =>
      have joined : unbracketed 0 (", ".intercalate (part :: next :: parts)).toList =
          unbracketed 0 part.toList ++
            ',' :: ' ' :: unbracketed 0 (", ".intercalate (next :: parts)).toList := by
        rw [String.intercalate_cons_cons, String.append_assoc, String.toList_append,
          first.shows.outside, String.toList_append]
        rfl
      rw [joined, List.splitOn_append_cons_self_of_not_mem absent, List.filterMap_cons, first.read,
        filterMap_splitOn_space, ih]

/-- A signature with its parameters in order, whose parameters have identifiers for names and types
that mention dotted identifiers only. -/
structure Signature.Legible (signature : Signature) : Prop where
  ordered : InOrder signature.parameters
  parameters : ∀ parameter ∈ signature.parameters, parameter.Legible
  starArgs : ∀ parameter ∈ signature.starArgs, parameter.Legible
  starStarArgs : ∀ parameter ∈ signature.starStarArgs, parameter.Legible

theorem prints_parameters {parameters : List Parameter}
    (h : ∀ parameter ∈ parameters, parameter.Legible) :
    List.Forall₂ Prints (parameters.map Parameter.text) (parameters.map Parameter.mark) := by
  rw [List.forall₂_map_left_iff, List.forall₂_map_right_iff, List.forall₂_same]
  exact fun parameter member => prints_text (h parameter member)

theorem prints_slash : Prints "/" .slash := ⟨.of_all (by decide), rfl⟩

theorem prints_starPart {starArgs : Option Parameter}
    (h : ∀ parameter ∈ starArgs, parameter.Legible) (keyword : List Parameter) :
    List.Forall₂ Prints (starPart starArgs keyword) (starMark starArgs keyword) := by
  have bare : Prints "*" (.star none) := ⟨.of_all (by decide), rfl⟩
  cases starArgs with
  | none =>
    unfold starPart starMark
    dsimp only
    split
    · exact .nil
    · exact .cons bare .nil
  | some parameter => exact .cons (prints_star (h parameter rfl)) .nil

/-- The reader finds the layout of a signature in the text of its parameter list. -/
theorem readLayout_parameterText {signature : Signature} (h : signature.Legible) :
    readLayout signature.parameterText = signature.layout := by
  obtain ⟨positional, regular, keyword, blocks, hp, hr, hk⟩ := h.ordered.blocks
  have legible := h.parameters
  rw [blocks, List.forall_mem_append, List.forall_mem_append] at legible
  have slash : List.Forall₂ Prints (if positional ≠ [] then ["/"] else [])
      (if positional ≠ [] then [.slash] else []) := by
    split
    · exact .cons prints_slash .nil
    · exact .nil
  have last : List.Forall₂ Prints (signature.starStarArgs.map fun p => "**" ++ p.text).toList
      (signature.starStarArgs.map fun p => Mark.starStar p.name).toList := by
    cases given : signature.starStarArgs with
    | none => exact .nil
    | some parameter => exact .cons (prints_starStar (h.starStarArgs parameter given)) .nil
  have printed : List.Forall₂ Prints
      (parameterParts signature.starArgs false false signature.parameters ++
        (signature.starStarArgs.map fun p => "**" ++ p.text).toList)
      (marksOf signature.starArgs signature.starStarArgs positional regular keyword) := by
    rw [blocks, parameterParts_blocks signature.starArgs false hp hr hk]
    simp only [List.append_assoc, Bool.false_or, decide_eq_true_eq]
    exact List.rel_append (prints_parameters legible.1) (List.rel_append slash
      (List.rel_append (prints_parameters legible.2.1) (List.rel_append
        (prints_starPart h.starArgs keyword)
        (List.rel_append (prints_parameters legible.2.2) last))))
  rw [readLayout, Signature.parameterText, filterMap_splitOn_intercalate printed,
    readMarks_marksOf hp hr hk, ← blocks]
  rfl

/-- Signatures with the same text of parameters, where both have their parameters in order,
identifiers for names and dotted identifiers for classes, have parameters of the same names, kinds and
defaults in the same order, and the same names for the parameters that take the remaining arguments.
-/
theorem Signature.layout_eq_of_parameterText {a b : Signature} (ha : a.Legible) (hb : b.Legible)
    (same : a.parameterText = b.parameterText) : a.layout = b.layout := by
  rw [← readLayout_parameterText ha, same, readLayout_parameterText hb]

/-- A signature with parameters of every kind, where a class is given under some name. -/
def manyKinds (number : String) : Signature where
  parameters := [⟨"a", .anything, .positionalOnly, false⟩,
    ⟨"b", .generic "builtins.dict" [.named "builtins.str", .named number], .regular, true⟩,
    ⟨"c", .callable (.union [.named number, .none]), .keywordOnly, false⟩]
  starArgs := none
  starStarArgs := some (.any "rest")
  returnType := .anything

theorem legible_manyKinds {number : String} (h : IsDotted number) : (manyKinds number).Legible where
  ordered := by simp [InOrder, manyKinds, ParameterKind.place]
  parameters := by
    have dict : IsDotted "builtins.dict" := ⟨["builtins", "dict"], by decide, by decide, by decide⟩
    have str : IsDotted "builtins.str" := ⟨["builtins", "str"], by decide, by decide, by decide⟩
    have none : IsDotted "builtins.NoneType" :=
      ⟨["builtins", "NoneType"], by decide, by decide, by decide⟩
    have b : IsIdentifier "b" := by decide
    have c : IsIdentifier "c" := by decide
    simp only [manyKinds, List.forall_mem_cons]
    refine ⟨.untyped (by decide) _ _, ⟨b, ?_⟩, ⟨c, ?_⟩, List.forall_mem_nil _⟩
    · simp [TypeExpr.classNames, TypeExpr.classNamesOf, dict, str, h]
    · simp [TypeExpr.classNames, TypeExpr.classNamesOf, TypeExpr.none, TypeExpr.noneName, none, h]
  starArgs := by simp [manyKinds]
  starStarArgs := by
    have rest : (Parameter.any "rest").Legible := .untyped (by decide) _ _
    simpa [manyKinds] using rest

/-- A class of the builtins is printed like one of the same name without a package. -/
theorem manyKinds_layout : manyKinds "builtins.int" ≠ manyKinds "int" ∧
    (manyKinds "int").parameterText =
      "a, /, b: dict[str, int] = ..., *, c: Callable[..., int | None], **rest" ∧
    (manyKinds "builtins.int").layout = (manyKinds "int").layout := by
  refine ⟨by decide, by decide, ?_⟩
  refine Signature.layout_eq_of_parameterText (legible_manyKinds ?_) (legible_manyKinds ?_)
    (by decide)
  · exact ⟨["builtins", "int"], by decide, by decide, by decide⟩
  · exact ⟨["int"], by decide, by decide, by decide⟩

end StubInference.Stub
