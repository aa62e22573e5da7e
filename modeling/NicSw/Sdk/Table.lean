/-
What the table libraries share: return codes (`sdk_ret_t`), API operations and
handles (`sdk_table_api_op_t` and `handle_t` of `sdk/table.hpp`).  The codes are
those the tables return.
-/
import Mathlib.Algebra.Group.Nat.Defs

namespace NicSw

/-- `sdk_ret_t`. -/
inductive SdkRet
  | ok
  | entryNotFound
  | entryExists
  | collision
  | noResource
  | maxRecircExceed
  | invalidArg
  | txnNotFound
  | txnExists
  | txnIncomplete
  | oob
  | invalidOp
  | err
  deriving DecidableEq, Repr

/-- `sdk_table_api_op_t`. -/
inductive SdkTableApi
  | insert
  | update
  | remove
  | get
  | reserve
  | release
  deriving DecidableEq, Repr

/-- `handle_t`: a primary index of 32 bits and a secondary index of 30 bits,
each with its valid bit. -/
structure Handle where
  pindex : Nat
  sindex : Nat
  pvalid : Bool
  svalid : Bool
  deriving DecidableEq, Repr

namespace Handle

/-- `handle_t::null`. -/
def null : Handle := ⟨0, 0, false, false⟩

/-- `handle_t::valid`. -/
def valid (h : Handle) : Bool := h.pvalid || h.svalid

/-- `handle_t::pindex(p)`. -/
def setPindex (h : Handle) (p : Nat) : Handle := { h with pindex := p % 2 ^ 32, pvalid := true }

/-- `handle_t::sindex(s)`. -/
def setSindex (h : Handle) (s : Nat) : Handle := { h with sindex := s % 2 ^ 30, svalid := true }

end Handle

end NicSw
