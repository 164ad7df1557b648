import Mathlib.Tactic.Common

/-!
# Errors of the public crate

The kinds are those of the source, with the texts that they print; an error is a kind and a text.
Its source and its context are not modelled, since nothing that is proved reads them.

Two things that are no errors are here as well, because several modules end in them.  A call of an
asynchronous function may stop with a panic, and a poll may have nothing to say yet.  Both keep
their places beside the errors, so that a statement about errors does not speak of them by
accident.
-/

namespace Storj.Client

/-- `ErrorKind` of the public crate, in the order of its declaration. -/
inductive ErrorKind where
  | invalidTlsIdentity
  | metadataInvalid
  | tooManyRequests
  | bandwidthLimitExceeded
  | storageLimitExceeded
  | segmentsLimitExceeded
  | permissionDenied
  | bucketNameInvalid
  | bucketAlreadyExists
  | bucketNotEmpty
  | bucketNotFound
  | objectKeyInvalid
  | objectNotFound
  | uploadDone
  | uploadIdInvalid
  | canceled
  | invalidGrant
  | decryptionFailed
  | protocol
  | io
  | edgeAuthDialFailed
  | edgeRegisterAccessFailed
deriving DecidableEq, Repr

/-- `Display` of `ErrorKind`, the text that stands in front of a message. -/
def ErrorKind.text : ErrorKind → String
  | .tooManyRequests => "too many requests"
  | .bandwidthLimitExceeded => "bandwidth limit exceeded"
  | .storageLimitExceeded => "storage limit exceeded"
  | .segmentsLimitExceeded => "segments limit exceeded"
  | .permissionDenied => "permission denied"
  | .bucketNameInvalid => "bucket name invalid"
  | .bucketAlreadyExists => "bucket already exists"
  | .bucketNotEmpty => "bucket not empty"
  | .bucketNotFound => "bucket not found"
  | .objectKeyInvalid => "object key invalid"
  | .objectNotFound => "object not found"
  | .uploadDone => "upload done"
  | .uploadIdInvalid => "upload ID invalid"
  | .canceled => "canceled"
  | .invalidGrant => "invalid grant"
  | .decryptionFailed => "decryption failed"
  | .protocol => "protocol"
  | .metadataInvalid => "invalid custom metadata"
  | .invalidTlsIdentity => "invalid TLS identity"
  | .io => "i/o"
  | .edgeAuthDialFailed => "dial to auth service failed"
  | .edgeRegisterAccessFailed => "register access for edge service failed"

/-- `Error` of the public crate. -/
structure Error where
  kind : ErrorKind
  message : String
deriving DecidableEq, Repr

/-- `Display` of `Error`. -/
def Error.toText (e : Error) : String := e.kind.text ++ ": " ++ e.message

/-- Why a call ends before it is through: it returns an error, or it panics. -/
inductive Stop where
  | error (e : Error)
  | panicked
deriving DecidableEq, Repr

/-- `Poll`. -/
inductive Poll (α : Type) where
  | pending
  | ready (a : α)
deriving DecidableEq, Repr

end Storj.Client
