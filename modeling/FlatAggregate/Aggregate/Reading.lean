import FlatAggregate.Aggregate.Document
import FlatAggregate.Document.ReadError
import FlatAggregate.Json.Reader
import FlatAggregate.Yaml.Reader

/-!
# Reading aggregates

Aggregates are read from JSON text, from YAML text and from YAML files.

A file is given by its bytes, or by nothing if it is not there, and is read as YAML. JSON text is
refused with the one message of its reader; YAML text and files are refused in the ways of
`ReadError`. A definition that does not fit is told by `ReadError.definitionMessage`, with the
reason behind it.
-/

namespace FlatAggregate

namespace Aggregate

def ofJson (text : String) : Except ReadError Aggregate :=
  (Json.readText read text).mapError .unfit

def ofYaml (text : String) : Except ReadError Aggregate := Yaml.readText read text

def ofFile (bytes : Option ByteArray) : Except ReadError Aggregate := Yaml.readFile read bytes

end Aggregate

def ReadError.definitionMessage (reason : String) : String :=
  "Failed to parse aggregate definition: " ++ reason

end FlatAggregate
