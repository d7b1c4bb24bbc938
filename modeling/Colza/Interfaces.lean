import Colza.SessionLanguages

/-!
# Results, error codes and the backend interface

`RequestResult` and `ErrorCode` are what every RPC answers with; `Backend` is the
abstract class a pipeline implements, here a record of state transformers over the
type of backend states. `protocol` is the calling discipline that the comments of
the class state for one backend object.
-/
namespace Interfaces

open SessionLanguages (Alphabet)

inductive ErrorCode where
  | success
  | pipelineIsActive
  | pipelineNotActive
  | invalidIteration
  | invalidPipelineName
  | jsonParseError
  | jsonConfigError
  | invalidSecurityToken
  | invalidLibrary
  | ssgError
  | invalidInstance
  | emptyDistPipeline
  | monaError
  | pipelineCreateError
  | invalidGroupHash
  | otherError
  deriving DecidableEq, Repr

def ErrorCode.value : ErrorCode → Int32
  | .success => 0
  | .pipelineIsActive => -1
  | .pipelineNotActive => -2
  | .invalidIteration => -3
  | .invalidPipelineName => -4
  | .jsonParseError => -5
  | .jsonConfigError => -6
  | .invalidSecurityToken => -7
  | .invalidLibrary => -8
  | .ssgError => -9
  | .invalidInstance => -10
  | .emptyDistPipeline => -11
  | .monaError => -12
  | .pipelineCreateError => -13
  | .invalidGroupHash => -14
  | .otherError => -255

/-- `value` is `none` until the code assigns it: the C++ member has no initialiser. -/
structure RequestResult (T : Type) where
  success : Bool := true
  error : String := ""
  value : Option T := none
  deriving DecidableEq, Repr

/-- The answer that a check of the provider refuses a request with. -/
def RequestResult.failure (code : ErrorCode) (error : String) : RequestResult Int32 :=
  { success := false, error := error, value := some code.value }

@[simp] theorem RequestResult.failure_success (code : ErrorCode) (error : String) :
    (RequestResult.failure code error).success = false := rfl

/-- `colza::Exception`. The code is cast from any 32-bit value that a reply carries. -/
structure Exception where
  code : Option Int32
  what : String
  deriving DecidableEq, Repr

def Exception.of (code : ErrorCode) (what : String) : Exception := ⟨some code.value, what⟩

/-- `colza::Type`. -/
inductive DataType where
  | int8 | uint8 | int16 | uint16 | int32 | uint32 | int64 | uint64 | float32 | float64
  deriving DecidableEq, Repr

/-- The memory that a sender exposes for the provider to pull from. -/
structure Bulk where
  bytes : List UInt8
  deriving DecidableEq, Repr

structure StageArgs where
  senderAddr : String
  datasetName : String
  blockId : UInt64
  dimensions : List UInt64
  offsets : List Int64
  type : DataType
  data : Bulk
  deriving DecidableEq, Repr

/-- `na_addr_t`, an opaque handle. -/
abbrev NaAddr := ℕ

structure Backend (β : Type) where
  updateMonaAddresses : β → List NaAddr → β
  start : β → UInt64 → RequestResult Int32 × β
  abort : β → UInt64 → β
  stage : β → UInt64 → StageArgs → RequestResult Int32 × β
  execute : β → UInt64 → RequestResult Int32 × β
  cleanup : β → UInt64 → RequestResult Int32 × β
  destroy : β → RequestResult Int32 × β

/-- One call on a backend object, with whether its result was a success.
`updateMonaAddresses` is not recorded. -/
inductive BackendCall where
  | start (iteration : UInt64) (success : Bool)
  | abort (iteration : UInt64)
  | stage (iteration : UInt64) (args : StageArgs) (success : Bool)
  | execute (iteration : UInt64) (success : Bool)
  | cleanup (iteration : UInt64) (success : Bool)
  | destroy (success : Bool)
  deriving DecidableEq, Repr

/-- A block is a failed `start`, or a successful one, calls inside the same iteration,
and one successful `cleanup` or `abort`. `destroy` is the last call. -/
def protocol : Alphabet UInt64 BackendCall where
  single i := {.start i false}
  opening i := {.start i true}
  inner i := {c | (∃ args ok, c = .stage i args ok) ∨ (∃ ok, c = .execute i ok) ∨
    c = .cleanup i false}
  closing i := {.cleanup i true, .abort i}
  last := {c | ∃ ok, c = .destroy ok}

theorem protocol_closing_nonempty (i : UInt64) : (protocol.closing i).Nonempty :=
  ⟨.abort i, Or.inr rfl⟩

theorem protocol_last_nonempty : protocol.last.Nonempty := ⟨.destroy true, true, rfl⟩

end Interfaces
