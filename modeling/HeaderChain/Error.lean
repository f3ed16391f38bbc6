import HeaderChain.Hash

/-!
# Failures

What can go wrong, by cause, with the words a person is told.

* `StoreError` — the key-value store, or the form of what it holds;
* `ChainError` — an operation of the chain;
* `ConfigError` — reading a configuration file.

Refusing a block is no failure: see `Outcome`.
-/

namespace HeaderChain

/-- **Why an operation on the store failed.** -/
inductive StoreError
  /-- The store failed, and this is what it says. -/
  | database (detail : String)
  /-- The stored bytes are not the written form of what they should be. -/
  | malformed
deriving DecidableEq

/-- What a person is told of a failure of the store. -/
def StoreError.message : StoreError → String
  | database detail => "Database error: " ++ detail
  | malformed => "Serialization error"

/-- **Why an operation on a chain failed.** A block that is refused is no failure. -/
inductive ChainError
  /-- No record is kept under the hash. -/
  | blockNotFound (hash : Hash)
  /-- No canonical block is known at the height. -/
  | heightNotFound (height : Height)
  /-- The verifier rejects the weight proof, for this reason. -/
  | proofRejected (reason : String)
  /-- The weight proof has no recent blocks, hence no tip. -/
  | emptyProof
  /-- The records behind a weight proof leave out its tip. -/
  | tipMissing (hash : Hash)
  /-- The parents of a block run in a circle. -/
  | endlessAncestry
  | store (cause : StoreError)
deriving DecidableEq

/-- What a person is told of a failure of an operation. -/
def ChainError.message : ChainError → String
  | blockNotFound hash => "block " ++ hash.text ++ " not found"
  | heightNotFound height => "no canonical block at height " ++ toString height.toNat
  | proofRejected reason => "weight proof failed verification: " ++ reason
  | emptyProof => "weight proof has no recent chain data"
  | tipMissing hash => "weight proof tip " ++ hash.text ++ " has no block record"
  | endlessAncestry => "the parents of a block run in a circle"
  | store cause => cause.message

/-- **Why a file was not read.** -/
inductive FileError
  | missing
  | directory
  | notText
deriving DecidableEq

/-- What a person is told of a file that was not read. -/
def FileError.message : FileError → String
  | missing => "No such file or directory (os error 2)"
  | directory => "Is a directory (os error 21)"
  | notText => "stream did not contain valid UTF-8"

/-- **Why a configuration was not read.** -/
inductive ConfigError
  | unreadable (cause : FileError)
  /-- The text is no well-formed document, or it says something no configuration says. -/
  | malformed
deriving DecidableEq

/-- What a person is told of a configuration that was not read. -/
def ConfigError.message : ConfigError → String
  | unreadable cause => "failed to read config: " ++ cause.message
  | malformed => "failed to parse config"

end HeaderChain
