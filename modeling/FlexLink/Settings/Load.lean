import FlexLink.Settings.Schema
import FlexLink.SystemError
import FlexLink.Toml.Reader
import FlexLink.Toml.Printer
import FlexLink.Text.Quoted
import FlexLink.Text.Utf8

/-! # Loading settings

Variables come before the settings file and the file before the defaults. -/
set_option autoImplicit false
namespace FlexLink

inductive SettingsError where
  | unreadable (file why : String)
  | malformed (file : String)
  | unwritable (file : String)
  | invalidValue (name value : String)
deriving DecidableEq

def SettingsError.message : SettingsError → String
  | .unreadable file why => s!"failed to read {file}: {why}"
  | .malformed file => s!"failed to parse {file}"
  | .unwritable file => s!"failed to write {file}"
  | .invalidValue name value => s!"invalid value for {name}: {Text.quote value}"

inductive FileState where
  | missing
  | directory
  | content (bytes : List UInt8)
deriving DecidableEq

namespace Settings

def variableName (part key : String) : String :=
  s!"FLEXMIDI_{part.map Char.toUpper}__{key.map Char.toUpper}"

def overrides : List (String × Setting Settings) :=
  sections.flatMap fun part => part.settings.map fun setting =>
    (variableName part.name setting.key, setting)

/-- Takes values from variables in order, up to the first that is refused. -/
def override (env : Environment) :
    List (String × Setting Settings) → Settings → Settings × Except SettingsError Unit
  | [], s => (s, .ok ())
  | (name, setting) :: rest, s =>
    match env.get? name with
    | none => override env rest s
    | some value =>
      match setting.ofText value s with
      | some s => override env rest s
      | none => (s, .error (.invalidValue name value))

def overridden (env : Environment) (s : Settings) : Settings × Except SettingsError Unit :=
  override env overrides s

def ofFile (env : Environment) (path : String) : FileState → Except SettingsError Settings
  | .missing => .ok (.standard env)
  | .directory => .error (.unreadable path SystemError.isDirectory.message)
  | .content bytes =>
    match Utf8.decode bytes with
    | .error _ => .error (.unreadable path "stream did not contain valid UTF-8")
    | .ok text =>
      match (Toml.parse? text).bind fun ms => readDocument ms (.standard env) with
      | some s => .ok s
      | none => .error (.malformed path)

def load (env : Environment) (path : String) (file : FileState) : Except SettingsError Settings :=
  match ofFile env path file with
  | .error e => .error e
  | .ok s =>
    match overridden env s with
    | (s, .ok ()) => .ok s
    | (_, .error e) => .error e

def standardDocument (env : Environment) : String :=
  Toml.writeTables (toTables (.standard env))

/-- What the settings file holds once the defaults are written where nothing was. -/
def establish (env : Environment) (path : String) (file : FileState) (writable : Bool) :
    Except SettingsError FileState :=
  match file with
  | .missing =>
    if writable then .ok (.content (Utf8.encode (standardDocument env))) else .error (.unwritable path)
  | file => .ok file

end Settings
end FlexLink
