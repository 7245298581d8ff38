/-!
# Arguments of a command line

Arguments are read from left to right into options with their values, and operands.

* `--name` is an option by its long name. Its value follows behind an equals sign or as the next
  argument;
* `-abc` are options by their short names. The first of them that takes a value takes the rest of
  the argument, behind an equals sign or not, or else the next argument;
* an argument that looks like an option is no value of the option in front of it;
* everything behind `--` is an operand, and so is a hyphen on its own.

The names are given by a `Vocabulary`. `Argument.ofList?` refuses unknown names, missing values, and
values of options that take none.
-/

namespace ConstraintSearch.CommandLine

/-- The options that a program knows. -/
structure Vocabulary (ι : Type) where
  ofLong? : String → Option ι
  ofShort? : Char → Option ι
  takesValue : ι → Bool

inductive Argument (ι : Type)
  /-- An option; the value of an option that takes none is empty. -/
  | option (name : ι) (value : String)
  | operand (text : String)
  deriving DecidableEq, Repr

namespace Argument

variable {ι : Type}

/-- What is read off one argument: options, and perhaps one that waits for its value. -/
structure Reading (ι : Type) where
  found : List (Argument ι)
  waiting : Option ι

/-- A long name, with a value behind an equals sign. -/
def ofLong? (v : Vocabulary ι) (text : List Char) : Option (Reading ι) := do
  let (name, rest) := text.span (· != '=')
  let name ← v.ofLong? (String.ofList name)
  match v.takesValue name, rest with
  | true, _ :: value => return ⟨[option name (String.ofList value)], none⟩
  | true, [] => return ⟨[], some name⟩
  | false, [] => return ⟨[option name ""], none⟩
  | false, _ :: _ => none

/-- Short names, with a value behind the last one. -/
def ofShorts? (v : Vocabulary ι) : List Char → Option (Reading ι)
  | [] => some ⟨[], none⟩
  | c :: rest => do
      let name ← v.ofShort? c
      if v.takesValue name then
        match rest with
        | [] => return ⟨[], some name⟩
        | '=' :: value => return ⟨[option name (String.ofList value)], none⟩
        | value => return ⟨[option name (String.ofList value)], none⟩
      else
        let reading ← ofShorts? v rest
        return { reading with found := option name "" :: reading.found }

/-- Whether an argument cannot be a value. -/
def looksLikeOption (text : String) : Bool :=
  match text.toList with
  | '-' :: _ :: _ => true
  | _ => false

/-- What is read off an argument, if it is not `--`. -/
def ofText? (v : Vocabulary ι) (text : String) : Option (Reading ι) :=
  match text.toList with
  | '-' :: '-' :: long => ofLong? v long
  | '-' :: c :: shorts => ofShorts? v (c :: shorts)
  | _ => some ⟨[operand text], none⟩

/-- The options and operands of a command line. -/
def ofList? (v : Vocabulary ι) : List String → Option (List (Argument ι))
  | [] => some []
  | text :: rest =>
      if text = "--" then some (rest.map operand)
      else
        match ofText? v text, rest with
        | none, _ => none
        | some ⟨found, none⟩, rest => (ofList? v rest).map (found ++ ·)
        | some ⟨_, some _⟩, [] => none
        | some ⟨found, some name⟩, value :: rest =>
            if looksLikeOption value then none
            else (ofList? v rest).map (found ++ option name value :: ·)

end Argument

end ConstraintSearch.CommandLine
