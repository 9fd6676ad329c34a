import IncludeAudit.Text.Affix

/-!
# IncludeAudit.Command.Arguments

The arguments of the command.

* `Arguments`: what a run is asked for.
* `Request.parse`: what a list of arguments asks for, read from the left to the right.

An option that takes a value has it behind a sign of equality or as the next argument; such an
argument must not look like an option itself. Behind `--` nothing is an option. Only the options
that make lists may be given twice.
-/

namespace IncludeAudit

structure Arguments where
  path? : Option String := none
  json : Bool := false
  warningsAsErrors : Bool := false
  settingsFile? : Option String := none
  noCache : Bool := false
  strict : Bool := false
  ignored : List String := []
  systemPrefixes : List String := []
  headerSuffixes : List String := []
deriving DecidableEq, Repr

namespace Arguments

def path (a : Arguments) : String := a.path?.getD "."

end Arguments

/-- Why arguments are refused. -/
inductive UsageProblem where
  | unexpected (argument : String)
  | repeated (option : String)
  | valueMissing (option : String)
  | valueUnneeded (option value : String)
deriving DecidableEq, Repr

inductive Request where
  | run (a : Arguments)
  | help
  | version
  | refused (problem : UsageProblem)
deriving DecidableEq, Repr

inductive Flag where
  | json
  | warningsAsErrors
  | noCache
  | strict
deriving DecidableEq, Repr

namespace Flag

def all : List Flag := [json, warningsAsErrors, noCache, strict]

def name : Flag → String
  | json => "json"
  | warningsAsErrors => "werror"
  | noCache => "no-cache"
  | strict => "strict"

def isSet (a : Arguments) : Flag → Bool
  | json => a.json
  | warningsAsErrors => a.warningsAsErrors
  | noCache => a.noCache
  | strict => a.strict

def set (a : Arguments) : Flag → Arguments
  | json => { a with json := true }
  | warningsAsErrors => { a with warningsAsErrors := true }
  | noCache => { a with noCache := true }
  | strict => { a with strict := true }

end Flag

inductive ValueOption where
  | settingsFile
  | ignore
  | systemPrefix
  | headerSuffix
deriving DecidableEq, Repr

namespace ValueOption

def all : List ValueOption := [settingsFile, ignore, systemPrefix, headerSuffix]

def name : ValueOption → String
  | settingsFile => "config"
  | ignore => "ignore"
  | systemPrefix => "system-prefix"
  | headerSuffix => "header-suffix"

/-- There is one settings file; the other options make lists. -/
def set (a : Arguments) (value : String) : ValueOption → Except UsageProblem Arguments
  | settingsFile =>
    match a.settingsFile? with
    | none => .ok { a with settingsFile? := some value }
    | some _ => .error (.repeated "--config")
  | ignore => .ok { a with ignored := a.ignored ++ [value] }
  | systemPrefix => .ok { a with systemPrefixes := a.systemPrefixes ++ [value] }
  | headerSuffix => .ok { a with headerSuffixes := a.headerSuffixes ++ [value] }

end ValueOption

/-- What an argument is, as far as it shows by itself. -/
inductive Token where
  | plain (s : String)
  | separator
  | help
  | version
  | flag (f : Flag)
  | option (o : ValueOption) (value? : Option String)
  | unneeded (name value : String)
  | unknown (s : String)
deriving DecidableEq, Repr

namespace Token

/-- The name of a long option, and its value if there is a sign of equality. -/
def cut (cs : List Char) : String × Option String :=
  let name := String.ofList (cs.takeWhile (· ≠ '='))
  match cs.dropWhile (· ≠ '=') with
  | [] => (name, none)
  | _ :: value => (name, some (String.ofList value))

def ofLong (s : String) (cs : List Char) : Token :=
  let (name, value?) := cut cs
  match ValueOption.all.find? (·.name = name), Flag.all.find? (·.name = name), value? with
  | some o, _, _ => option o value?
  | none, some f, none => flag f
  | none, some f, some value => unneeded ("--" ++ f.name) value
  | none, none, _ =>
    if name = "help" || name = "version" then
      match value? with
      | some value => unneeded ("--" ++ name) value
      | none => if name = "help" then help else version
    else unknown s

/-- A single dash is no option; of several short options the first decides. -/
def ofString (s : String) : Token :=
  match s.toList with
  | ['-', '-'] => separator
  | '-' :: '-' :: cs => ofLong s cs
  | ['-'] => plain s
  | '-' :: 'h' :: _ => help
  | '-' :: 'V' :: _ => version
  | '-' :: _ => unknown s
  | _ => plain s

end Token

namespace Request

def setPath (a : Arguments) (s : String) : Except UsageProblem Arguments :=
  match a.path? with
  | none => .ok { a with path? := some s }
  | some _ => .error (.unexpected s)

/-- Arguments none of which is an option. -/
def plainFrom (a : Arguments) : List String → Request
  | [] => run a
  | s :: rest =>
    match setPath a s with
    | .error problem => refused problem
    | .ok a => plainFrom a rest

def parseFrom (a : Arguments) : List String → Request
  | [] => run a
  | s :: rest =>
    match Token.ofString s with
    | .separator => plainFrom a rest
    | .help => help
    | .version => version
    | .unknown s => refused (.unexpected s)
    | .unneeded name value => refused (.valueUnneeded name value)
    | .plain s =>
      match setPath a s with
      | .error problem => refused problem
      | .ok a => parseFrom a rest
    | .flag f =>
      if f.isSet a then refused (.repeated ("--" ++ f.name)) else parseFrom (f.set a) rest
    | .option o (some value) =>
      match o.set a value with
      | .error problem => refused problem
      | .ok a => parseFrom a rest
    | .option o none =>
      match rest with
      | [] => refused (.valueMissing ("--" ++ o.name))
      | value :: rest =>
        match Token.ofString value with
        | .plain value =>
          match o.set a value with
          | .error problem => refused problem
          | .ok a => parseFrom a rest
        | _ => refused (.valueMissing ("--" ++ o.name))

def parse (arguments : List String) : Request := parseFrom {} arguments

end Request
end IncludeAudit
