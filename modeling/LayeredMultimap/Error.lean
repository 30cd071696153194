import LayeredMultimap.Transformer

/-!
# Errors and log records

The ways in which a change of a multimap can fail, the failure of a recast of existing content,
which hands a map back, and the records that a recast leaves in the log.
-/

namespace LayeredMultimap

/-- Why a change of a multimap failed. -/
inductive MapError where
  /-- A required argument was absent. -/
  | nullArgument (name : String)
  /-- A key or value transformer failed. -/
  | transform (e : TransformFailure)
  /-- The base refused a mapping. -/
  | rejected (cause : String)
deriving DecidableEq

namespace MapError

def message : MapError → String
  | .nullArgument name => name ++ " must not be null"
  | .transform e => e.message
  | .rejected cause => "Mapping rejected: " ++ cause

end MapError

/-- The failure of a recast of existing content, with the map as the recast left it. -/
structure RecastError (M : Type) where
  error : MapError
  map : M

namespace RecastError

variable {M N : Type}

def message (e : RecastError M) : String := e.error.message

def parts (e : RecastError M) : MapError × M := (e.error, e.map)

end RecastError

/-- What a recast of existing content tells the log. -/
inductive LogRecord where
  /-- The content is about to be put back; so many keys have values. -/
  | recasting (keys : Nat)
  /-- An error stopped the recast. -/
  | stopped (cause : MapError)
deriving DecidableEq

namespace LogRecord

def level (_ : LogRecord) : String := "DEBUG"

def message : LogRecord → String
  | .recasting keys => "Re-transforming " ++ toString keys ++ " keys of the decorated map"
  | .stopped cause => "Re-transforming stopped: " ++ cause.message

end LogRecord

/-- Event types with room for the log records of this library. -/
class Logging (E : Type) where
  logged : LogRecord → E

end LayeredMultimap
