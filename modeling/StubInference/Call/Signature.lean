import StubInference.Call.Arguments

/-!
# Signatures

A signature is the parameter layout of a function. Binding the arguments of a call to it gives every
parameter a variable; whatever does not fit is reported and the parameter may be anything.

## Main definitions

* `Signature`, `Signature.ofCode`, `Signature.ofParams` — parameter layouts
* `ArgError` — why a call does not fit
* `Signature.mapArgs` — bind the arguments of a call
* `Signature.fakeArgs` — bind unknown arguments
-/

namespace StubInference

/-- The parameter layout of a function: positional parameters with the positional-only ones first,
keyword-only ones, the names of `*args` and `**kwargs`, and the default values. -/
structure Signature where
  name : String
  params : List String
  posOnlyCount : Nat
  kwOnly : List String
  varArgs : Option String
  varKeywords : Option String
  defaults : NameMap Variable

/-- Why a call does not fit a signature. -/
inductive ArgError where
  | tooManyPositional (expected got : Nat)
  | missingParameter (name : String)
  | unexpectedKeyword (name : String)
  | duplicateKeyword (name : String)
  deriving DecidableEq

/-- The text of a misfit. -/
def ArgError.message : ArgError → String
  | .tooManyPositional expected got => s!"expected {expected} positional argument(s), got {got}"
  | .missingParameter name => s!"missing parameter '{name}'"
  | .unexpectedKeyword name => s!"unexpected keyword argument '{name}'"
  | .duplicateKeyword name => s!"multiple values for argument '{name}'"

/-- The parameters with what they are bound to, and what did not fit. -/
structure MappedArgs where
  args : NameMap Variable
  errors : List ArgError

namespace Signature

/-- The signature of a code object. Defaults belong to the last positional parameters. -/
def ofCode (code : Code) (defaults : List Variable) (kwDefaults : NameMap Variable) : Signature :=
  let params := code.positionalParams
  let withDefault := params.drop (params.length - defaults.length)
  { name := code.name
    params
    posOnlyCount := min code.posOnlyArgCount params.length
    kwOnly := code.kwOnlyParams
    varArgs := code.varArgsName?
    varKeywords := code.varKeywordsName?
    defaults := NameMap.ofEntries (withDefault.zip defaults ++ kwDefaults) }

/-- A signature of plain positional parameters. -/
def ofParams (name : String) (params : List String) : Signature :=
  ⟨name, params, 0, [], none, none, []⟩

/-- Every named parameter in order of declaration. -/
def namedParams (sig : Signature) : List String := sig.params ++ sig.kwOnly

/-! ## Binding arguments -/

/-- Whether a keyword argument of that name goes to a named parameter. Positional-only parameters
take none. -/
def takesKeyword (sig : Signature) (name : String) : Bool :=
  match sig.params.findIdx? (· == name) with
  | some index => sig.posOnlyCount ≤ index
  | none => sig.kwOnly.contains name

/-- Arguments under distribution: the parameters bound so far, the keyword arguments left over, and
what did not fit. -/
structure Distribution where
  bound : NameMap Variable
  extra : NameMap Variable
  errors : List ArgError

/-- Hand a keyword argument to its parameter, or to `**kwargs`. -/
def giveKeyword (sig : Signature) (d : Distribution) (argument : String × Variable) :
    Distribution :=
  let (name, var) := argument
  if sig.takesKeyword name then
    if d.bound.has name then { d with errors := d.errors ++ [.duplicateKeyword name] }
    else { d with bound := d.bound.insert name var }
  else if sig.varKeywords.isSome then { d with extra := d.extra.insert name var }
  else { d with errors := d.errors ++ [.unexpectedKeyword name] }

/-- Bind those of the names to `any` that are not bound yet. -/
def fillUnknown (bound : NameMap Variable) (names : List String) : NameMap Variable :=
  names.foldl (fun bound name => if bound.has name then bound else bound.insert name Value.any.var)
    bound

/-- The parameters that unknown positional or keyword arguments may reach are bound to `any`. -/
def fillStars (sig : Signature) (args : Args) (bound : NameMap Variable) : NameMap Variable :=
  let bound := if args.star.isSome then fillUnknown bound sig.params else bound
  if args.starStar.isSome then fillUnknown bound (sig.params.drop sig.posOnlyCount ++ sig.kwOnly)
  else bound

/-- Give every named parameter its argument, else its default, else `any`. An argument is used up
by the first parameter of its name. -/
def settle (sig : Signature) (bound : NameMap Variable) : (names : List String) → MappedArgs →
    MappedArgs
  | [], mapped => mapped
  | name :: rest, mapped =>
    let give (var : Variable) : MappedArgs := { mapped with args := mapped.args.insert name var }
    match bound.get? name, sig.defaults.get? name with
    -- of two parameters of one name only the first takes the argument
    | some var, _ => settle sig (bound.erase name) rest (give var)
    | none, some default => settle sig bound rest (give default)
    | none, none =>
      let mapped := give Value.any.var
      settle sig bound rest { mapped with errors := mapped.errors ++ [.missingParameter name] }

/-- Bind a parameter that collects the rest, if the signature has it. -/
def giveRest (name : Option String) (value : Value) (args : NameMap Variable) : NameMap Variable :=
  match name with
  | some name => args.insert name value.var
  | none => args

/-- What the positional arguments beyond the parameters report: nothing where `*args` takes them. -/
def excess (sig : Signature) (args : Args) : List ArgError :=
  if sig.params.length < args.positional.length && sig.varArgs.isNone then
    [.tooManyPositional sig.params.length args.positional.length]
  else []

/-- Bind the arguments of a call to the parameters. -/
def mapArgs (sig : Signature) (args : Args) : MappedArgs :=
  let start : Distribution :=
    ⟨NameMap.ofEntries (sig.params.zip args.positional), [], sig.excess args⟩
  let d := args.keywords.foldl sig.giveKeyword start
  let mapped := sig.settle (sig.fillStars args d.bound) sig.namedParams ⟨[], d.errors⟩
  let rest := if args.star.isSome then none else some (args.positional.drop sig.params.length)
  let others := if args.starStar.isSome then none else some d.extra
  let filled := giveRest sig.varArgs (.argTuple rest) mapped.args
  { mapped with args := giveRest sig.varKeywords (.argDict others) filled }

/-- Bind unknown arguments: the first parameter is the receiver where one is given, everything else
may be anything. -/
def fakeArgs (sig : Signature) (receiver : Option Value) : NameMap Variable :=
  let values := receiver.toList ++ List.replicate sig.namedParams.length .any
  let named := NameMap.ofEntries (sig.namedParams.zip (values.map Value.var))
  giveRest sig.varKeywords (.argDict none) (giveRest sig.varArgs (.argTuple none) named)

end Signature

end StubInference
