import Isolation.Text.Decimal

/-!
# Words of a Command

A command is followed by words: options, which begin with two hyphens and mostly take a value, and
positional words. The words are scanned from left to right. What may follow a command is a `Grammar`, and
a scan gives a table of named values.

Values are not looked at when they are met, but when it is clear that they are complete: when the next
option, flag or positional word begins, or at the end. An unknown word is therefore noticed before a bad
value in front of it. A value that is attached with an equals sign is complete at once.

A word that begins with a hyphen is never a value, unless it is a single hyphen. After a word of two
hyphens everything is positional.

## Main definitions

* `Grammar`, `Grammar.scan`: What may follow a command, and the arguments that some words give.
-/

namespace Isolation.CommandLine

/-- Why words cannot be understood. -/
inductive UsageError where
  | nothingGiven
  | helpWanted
  | unknownCommand
  /-- An option that does not exist, or a positional word too many. -/
  | unknownArgument
  | surplusValue
  | repeatedArgument
  /-- A value that is missing, empty or none of the choices. -/
  | invalidValue
  | invalidNumber
  | missingArgument
deriving DecidableEq, Repr

/-- What an option or a positional word has to be. -/
inductive ValueKind where
  | choice (names : List String)
  | number
  | path
deriving DecidableEq, Repr

def ValueKind.check (kind : ValueKind) (value : String) : Except UsageError Unit :=
  match kind with
  | .choice names => if names.contains value then .ok () else .error .invalidValue
  | .number => if (Text.wordOfText? value.toList).isSome then .ok () else .error .invalidNumber
  | .path => if value.isEmpty then .error .invalidValue else .ok ()

/-- An option; without a kind of value it is a flag. -/
structure OptionRule where
  name : String
  value : Option ValueKind
  isRequired : Bool := false
deriving DecidableEq, Repr

/-- What may follow a command. Every positional word is required. -/
structure Grammar where
  positionals : List String
  options : List OptionRule
deriving DecidableEq, Repr

/-- Values by name. A flag that was given has an empty value. -/
abbrev Arguments : Type := List (String × String)

def Arguments.given (arguments : Arguments) (name : String) : Bool :=
  (List.lookup name arguments).isSome

/-- An argument whose value is not complete. -/
structure Pending where
  name : String
  kind : ValueKind
  value : Option String
deriving DecidableEq, Repr

/-- How far a scan has come. -/
structure Scan where
  arguments : Arguments
  pending : Option Pending
  /-- The positional words that are still to come. -/
  waiting : List String
  plainOnly : Bool
deriving DecidableEq, Repr

namespace Scan

def enter (s : Scan) (name : String) (kind : ValueKind) (value : String) :
    Except UsageError Scan :=
  if s.arguments.given name then .error .repeatedArgument
  else (kind.check value).map fun () => { s with arguments := s.arguments ++ [(name, value)] }

def settle (s : Scan) : Except UsageError Scan :=
  match s.pending with
  | none => .ok s
  | some ⟨_, _, none⟩ => .error .invalidValue
  | some ⟨name, kind, some value⟩ => { s with pending := none }.enter name kind value

def positional (s : Scan) (word : String) : Except UsageError Scan :=
  match s.waiting with
  | [] => .error .unknownArgument
  | name :: waiting =>
    s.settle.map fun s => { s with waiting := waiting, pending := some ⟨name, .path, some word⟩ }

/-- A word that is neither an option nor behind two hyphens: a value, if one is due. -/
def plain (s : Scan) (word : String) : Except UsageError Scan :=
  match s.pending with
  | some ⟨name, kind, none⟩ => .ok { s with pending := some ⟨name, kind, some word⟩ }
  | _ => s.positional word

/-- Help ends a scan, unless something before it is wrong. -/
def help (s : Scan) : Except UsageError Scan :=
  s.settle.bind fun _ => .error .helpWanted

def flag (s : Scan) (name : String) : Except UsageError Scan :=
  s.settle.bind fun s =>
    if s.arguments.given name then .error .repeatedArgument
    else .ok { s with arguments := s.arguments ++ [(name, "")] }

/-- An option that takes a value, with the value that is attached to it. -/
def option (s : Scan) (name : String) (kind : ValueKind) (attached : Option String) :
    Except UsageError Scan :=
  s.settle.bind fun s =>
    match attached with
    | some value => s.enter name kind value
    | none => .ok { s with pending := some ⟨name, kind, none⟩ }

def long (g : Grammar) (s : Scan) (name : String) (attached : Option String) :
    Except UsageError Scan :=
  if name = "help" then (if attached.isSome then .error .surplusValue else s.help)
  else match g.options.find? fun rule => rule.name = name with
    | none => .error .unknownArgument
    | some ⟨_, some kind, _⟩ => s.option name kind attached
    | some ⟨_, none, _⟩ => if attached.isSome then .error .surplusValue else s.flag name

end Scan

/-- The forms that a word can have. -/
inductive WordForm where
  | separator
  /-- Two hyphens and a name, perhaps with a value behind an equals sign. -/
  | long (name : String) (value : Option String)
  | short (letters : List Char)
  | plain
deriving DecidableEq, Repr

def WordForm.of (word : String) : WordForm :=
  match word.toList with
  | ['-', '-'] => .separator
  | '-' :: '-' :: rest =>
    let name := rest.takeWhile (· ≠ '=')
    let value := match rest.dropWhile (· ≠ '=') with
      | [] => none
      | _ :: value => some (String.ofList value)
    .long (String.ofList name) value
  | '-' :: c :: rest => .short (c :: rest)
  | _ => .plain

/-- One word. The only option of a single letter asks for help. -/
def Scan.step (g : Grammar) (s : Scan) (word : String) : Except UsageError Scan :=
  if s.plainOnly then s.positional word
  else match WordForm.of word with
    | .separator => .ok { s with plainOnly := true }
    | .long name value => Scan.long g s name value
    | .short ('h' :: _) => s.help
    | .short _ => .error .unknownArgument
    | .plain => s.plain word

/-- Fills in values for options that were not given. -/
def Grammar.fill (g : Grammar) (defaults : Arguments) (arguments : Arguments) :
    Except UsageError Arguments :=
  defaults.foldlM (fun arguments (name, value) =>
    if arguments.given name then .ok arguments
    else match g.options.find? fun rule => rule.name = name with
      | some ⟨_, some kind, _⟩ => (kind.check value).map fun () => arguments ++ [(name, value)]
      | _ => .ok arguments) arguments

def Grammar.required (g : Grammar) : List String :=
  g.positionals ++ (g.options.filter OptionRule.isRequired).map OptionRule.name

/-- The arguments that some words give. Values for options that the words leave out may come from
    elsewhere; they are looked at before anything is declared missing. -/
def Grammar.scan (g : Grammar) (defaults : Arguments) (words : List String) :
    Except UsageError Arguments := do
  let s ← words.foldlM (Scan.step g) ⟨[], none, g.positionals, false⟩
  -- The last value is complete, and what comes from elsewhere is checked like the rest.
  let arguments ← g.fill defaults (← s.settle).arguments
  if g.required.all arguments.given then .ok arguments else .error .missingArgument

end Isolation.CommandLine
