import Mathlib.Logic.Basic

set_option autoImplicit false

namespace FlintDB

/-- What a call of the engine ends with when it does not return. -/
inductive Exception
  | sqlSemanticError (what : String)
  | invalidArgument (what : String)
  | logicError (what : String)
  | runtimeError (what : String)
  | transactionAborted (txnId : Nat)
  -- no exception: the call has not returned, it sleeps inside AcquireLock
  | asleep
  -- a null pointer, an index past the end of a vector: what the source does there is not defined
  | undefined
  deriving DecidableEq

-- The call has thrown something that can be caught.
def Exception.Thrown : Exception → Prop
  | .asleep | .undefined => False
  | _ => True

end FlintDB
