import IncludeAudit.Conventions
import IncludeAudit.Error
import IncludeAudit.Toml.Document
import IncludeAudit.Tree.Basic

/-!
# IncludeAudit.Settings.File

The settings file that lies next to the streams.

* `FileSettings.ofMembers?`: the settings in a document. What is left out has its default, and
  names that are no settings are passed over.
* `FileSettings.parse`: the settings that a text holds.
* `FileSettings.load`: the settings in the file of the usual name, `none` if there is none.

The members of a table may also be given as an array of their values in order; a moment stands
for a table without members.
-/

namespace IncludeAudit

open Toml (Value)

structure OutputSettings where
  format? : Option String := none
deriving DecidableEq, Repr

structure FileSettings where
  conventions : Conventions := {}
  ignored? : Option (List String) := none
  output? : Option OutputSettings := none
deriving DecidableEq, Repr

namespace FileSettings

def text? : Value → Option String
  | .string s => some s
  | _ => none

def texts? : Value → Option (List String)
  | .array items => items.mapM text?
  | _ => none

def flag? : Value → Option Bool
  | .boolean b => some b
  | _ => none

def memberOf? (name : String) : List (String × Value) → Option Value
  | [] => none
  | (key, v) :: rest => if key = name then some v else memberOf? name rest

/-- An absent member has the default, and one of the wrong kind has no value. -/
def orDefault {α : Type} (read : Value → Option α) (default : α) : Option Value → Option α
  | none => some default
  | some v => read v

/-- What a table or its short form says about the member with this name and place. -/
def lookup? : Value → Option (String → Nat → Option Value)
  | .table members => some fun name _ => memberOf? name members
  | .array items => some fun _ place => items[place]?
  | .moment _ => some fun _ _ => none
  | _ => none

def conventionsOf? (v : Value) : Option Conventions := do
  let member ← lookup? v
  let d : Conventions := {}
  let texts (name : String) (place : Nat) (default : List String) : Option (List String) :=
    orDefault texts? default (member name place)
  some
    { systemPrefixes := ← texts "system_prefixes" 0 d.systemPrefixes
      headerSuffixes := ← texts "header_suffixes" 1 d.headerSuffixes
      sourceSuffixes := ← texts "source_suffixes" 2 d.sourceSuffixes
      selfHeaderSuffixes := ← texts "self_header_suffixes" 3 d.selfHeaderSuffixes
      privateSuffix := ← orDefault text? d.privateSuffix (member "private_suffix" 4)
      publicSuffix := ← orDefault text? d.publicSuffix (member "public_suffix" 5)
      warningsAsErrors := ← orDefault flag? d.warningsAsErrors (member "warnings_as_errors" 6)
      skippedUnitPrefixes := ← texts "skipped_unit_prefixes" 7 d.skippedUnitPrefixes }

/-- The short form must give the format. -/
def outputOf? (v : Value) : Option OutputSettings := do
  let member ← lookup? v
  match v, member "format" 0 with
  | .array _, none => none
  | _, none => some {}
  | _, some v => (text? v).map fun s => ⟨some s⟩

def ofMembers? (members : List (String × Value)) : Option FileSettings := do
  some
    { conventions := ← orDefault conventionsOf? {} (memberOf? "analyzer" members)
      ignored? := ← orDefault (fun v => (texts? v).map some) none (memberOf? "ignore" members)
      output? := ← orDefault (fun v => (outputOf? v).map some) none (memberOf? "output" members) }

/-- Where a text stops, by line and by character. -/
def faultText (text rest : List Char) : String :=
  let before := text.take (text.length - rest.length)
  let column := (before.reverse.takeWhile (· ≠ '\n')).length + 1
  "TOML parse error at line " ++ toString (1 + before.count '\n') ++ ", column " ++ toString column

def parse (s : String) : Except String FileSettings :=
  match Toml.parse s with
  | .error rest => .error (faultText s.toList rest)
  | .ok members =>
    match ofMembers? members with
    | none => .error "TOML parse error: a setting has a value of the wrong type"
    | some settings => .ok settings

def loadFile (t : Tree) (path : String) : Except Error FileSettings :=
  match t.readText path with
  | .error problem => .error (.io path problem.text)
  | .ok text => (parse text).mapError (Error.config path)

def fileName : String := "deadinc.toml"

def load (t : Tree) (root : String) : Except Error (Option FileSettings) :=
  let path := Path.join root fileName
  if t.exists? path then (loadFile t path).map some else .ok none

end FileSettings
end IncludeAudit
