import HeaderChain.Error
import HeaderChain.Stored
import HeaderChain.Toml.Reader

/-!
# Configuration files

A configuration is read from TOML text. Its parts are those that are stored, under the same names: a
part that is absent has its default, a name that is unknown is refused, and the constants are given
all together or not at all.
-/

namespace HeaderChain

/-- What is found where a configuration file is looked for. -/
inductive FileState
  | missing
  | directory
  | regular (content : Bytes)
deriving DecidableEq

/-- The text of a regular file, if it is text. -/
def FileState.text : FileState → Except FileError String
  | missing => .error .missing
  | directory => .error .directory
  | regular content =>
    match content.text? with
    | some text => .ok text
    | none => .error .notText

/-- Reads a configuration. The parts that are not given have their defaults. -/
def Config.ofToml (text : String) : Except ConfigError Config :=
  match (Toml.read text).bind (Config.ofDatum? .ignored) with
  | some config => .ok config
  | none => .error .malformed

/-- Reads constants that stand alone. -/
def Constants.ofToml (text : String) : Except ConfigError Constants :=
  match (Toml.read text).bind (Constants.ofDatum? .ignored) with
  | some constants => .ok constants
  | none => .error .malformed

/-- Reads a configuration from a file. -/
def Config.ofFile (file : FileState) : Except ConfigError Config :=
  match file.text with
  | .error cause => .error (.unreadable cause)
  | .ok text => Config.ofToml text

end HeaderChain
