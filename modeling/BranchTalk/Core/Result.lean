import BranchTalk.Json.Value

set_option autoImplicit false

/-! # Errors and results

`libs/core/include/branchtalk/core/error.hpp` and `result.hpp`. A `std::string` is its bytes. -/

namespace BranchTalk.Core

export Json (Bytes ascii)

inductive ErrorCode where
  | invalidArgument
  | notFound
  | conflict
  | operationFailed
  deriving DecidableEq, Repr

structure Error where
  code : ErrorCode
  message : Bytes
  deriving DecidableEq, Repr

/-- Either a value or an error. -/
abbrev Result (T : Type) : Type := Except Error T

end BranchTalk.Core
