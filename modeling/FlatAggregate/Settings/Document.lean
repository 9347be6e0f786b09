import FlatAggregate.Settings.Error
import FlatAggregate.Yaml.Reader

/-!
# Settings as documents

Settings are a record of a YAML document. All of them have defaults, and unknown members are passed
over.

`ofYaml` reads a text and `ofFile` a file, given by its bytes or by nothing if it is not there. The
ranges are looked at when all members have been read.
-/

namespace FlatAggregate

namespace Settings

def shape : RecordShape Yaml.Reader Settings Settings where
  expected := "struct GeneratorConfig"
  fields :=
    [⟨Ranged.maxHintLength.name, false, fun settings => do
        return { settings with maxHintLength := ← Yaml.Reader.count }⟩,
      ⟨Ranged.counterWidth.name, false, fun settings => do
        return { settings with counterWidth := ← Yaml.Reader.count }⟩,
      ⟨"name_hints", false, fun settings => do
        return { settings with hints := ← Yaml.Reader.flag }⟩]
  finish := .ok

def ofYaml (text : String) : Except SettingsError Settings :=
  match Yaml.readText (DocumentReader.record shape {}) text with
  | .ok settings => settings.checked
  | .error error => .error (.document text error)

def ofFile (bytes : Option ByteArray) : Except SettingsError Settings :=
  match fileText bytes with
  | .ok text => ofYaml text
  | .error error => .error (.document "" error)

end Settings

end FlatAggregate
