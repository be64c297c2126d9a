import NeuroMap.Settings.Basic
import NeuroMap.Toml.Document

/-!
# Settings files

Settings are kept in a TOML file. Members that are not known are ignored, and so are surplus items where a section is
given as a list.
-/

namespace NeuroMap

/-- Why there are no settings. -/
inductive SettingsError where
  | missingFile
  /-- The file is not encoded as text. -/
  | notText
  /-- The text is no TOML, or a value has the wrong type. -/
  | malformed
  | invalid (f : Settings.Fault)
deriving DecidableEq, Repr

namespace SettingsError

/-- The error in words. -/
def message : SettingsError → String
  | missingFile => "failed to read configuration: No such file or directory (os error 2)"
  | notText => "failed to read configuration: stream did not contain valid UTF-8"
  | malformed => "failed to parse configuration"
  | invalid f => "validation error: " ++ f.message

end SettingsError

namespace Settings

/-- The fields of the section on partitioning. -/
def partitionFields (s : Settings) : Fields Settings := do
  return { s with target := ← Fields.defaulted "target" Data.asFloat s.target }

/-- The fields of the section on filter tables. -/
def filterFields (s : Settings) : Fields Settings := do
  let dt ← Fields.defaulted "dt" Data.asFloat s.dt
  let minimise ← Fields.defaulted "minimise" Data.asBool s.options.minimise
  let width ← Fields.defaulted "width" (fun d => d.asWord.map some) s.options.width
  let routingTag ← Fields.defaulted "filter_routing_tag" Data.asText s.options.routingTag
  let indexField ← Fields.defaulted "index_field" Data.asText s.options.indexField
  return { s with dt, options := { minimise, width, routingTag, indexField } }

/-- The fields of the section on routing keys. -/
def keyspaceFields (s : Settings) : Fields Settings := do
  let keyName ← Fields.defaulted "name" Data.asText s.keyName
  let keyFields ← Fields.defaulted "fields" (Data.asList (Data.asRecord false FieldDecl.fields)) s.keyFields
  return { s with keyName, keyFields }

/-- Reads a section, if it is there, over the settings so far. -/
def overSection (name : String) (fields : Settings → Fields Settings) (s : Settings) : Fields Settings :=
  Fields.defaulted name (Data.asRecord false (fields s)) s

/-- The settings that data stand for. -/
def ofData? : Data → Option Settings :=
  Data.asRecord false (do
    let s ← overSection "partition" partitionFields standard
    let s ← overSection "filters" filterFields s
    overSection "keyspace" keyspaceFields s)

/-- The settings of a TOML text. -/
def ofText (text : String) : Except SettingsError Settings :=
  match Toml.parse text with
  | none => .error .malformed
  | some d =>
    match ofData? d with
    | none => .error .malformed
    | some s =>
      match s.validate with
      | .error f => .error (.invalid f)
      | .ok () => .ok s

/-- The name of the file that holds the settings. -/
def fileName : String := "tessera.toml"

/-- The settings in a directory, given by the contents of its files. -/
def load (file? : String → Option ByteArray) : Except SettingsError Settings :=
  match file? fileName with
  | none => .error .missingFile
  | some bytes =>
    match String.fromUTF8? bytes with
    | none => .error .notText
    | some text => ofText text

end Settings

end NeuroMap
