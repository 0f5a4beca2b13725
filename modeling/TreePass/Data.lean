import Mathlib.Order.Defs.LinearOrder
import Mathlib.Tactic.Common

/-!
# Keys, messages and the merge callbacks

The vocabulary of `data_internal.h`: typed messages, the application's callbacks and the two
wrappers through which every other part of the store calls them.  Keys are the elements of a
linear order, which is what an application's `key_compare` has to provide; the callbacks that
merge messages are arbitrary and may fail.
-/

namespace TreePass

/-- The error codes of `platform_status` the modelled code returns. -/
inductive PlatformStatus where
  | badParam
  | noMemory
  | noSpace
  deriving DecidableEq, Repr

/-- Outcome of code with loops: `none` when the fuel of a loop ran out, otherwise an error code
or a value. -/
abbrev Result (α : Type) := ExceptT PlatformStatus Option α

/-- `message_type`. -/
inductive MessageType where
  | invalid
  | insert
  | update
  | delete
  | pivotData
  deriving DecidableEq, Repr

/-- A message, and likewise the contents of a `merge_accumulator`. -/
structure Message where
  type : MessageType
  data : List UInt8
  deriving DecidableEq, Repr

/-- `message_is_definitive`: no older message can change the outcome. -/
def Message.isDefinitive (m : Message) : Bool := m.type == .insert || m.type == .delete

/-- A key with its message. -/
structure Tuple (K : Type) where
  key : K
  msg : Message
  deriving DecidableEq, Repr

/-- The application's merge callbacks; `none` is a nonzero return code. -/
structure DataConfig (K : Type) where
  /-- `merge_tuples key old new`: the merged message replaces `new`. -/
  mergeTuples : K → Message → Message → Option Message
  /-- `merge_tuples_final key oldest`. -/
  mergeTuplesFinal : K → Message → Option Message

namespace DataConfig

variable {K : Type} (cfg : DataConfig K)

/-- `data_merge_tuples`: merge an older message under the accumulated newer one. -/
def dataMergeTuples (tupleKey : K) (oldRawMessage newMessage : Message) : Option Message :=
  if newMessage.isDefinitive then
    some newMessage
  else if oldRawMessage.type = .delete then
    cfg.mergeTuplesFinal tupleKey newMessage
  else
    cfg.mergeTuples tupleKey oldRawMessage newMessage

/-- `data_merge_tuples_final`: resolve an accumulated message that has nothing under it. -/
def dataMergeTuplesFinal (tupleKey : K) (oldestMessage : Message) : Option Message :=
  if oldestMessage.isDefinitive then
    some oldestMessage
  else
    cfg.mergeTuplesFinal tupleKey oldestMessage

/-- Fold the older messages of a key, newest first, under an accumulated message. -/
def foldUnder (tupleKey : K) (newest : Message) (older : List Message) : Option Message :=
  older.foldlM (fun newer old => cfg.dataMergeTuples tupleKey old newer) newest

@[simp] theorem foldUnder_nil (tupleKey : K) (m : Message) : cfg.foldUnder tupleKey m [] = some m :=
  rfl

@[simp] theorem foldUnder_cons (tupleKey : K) (newest old : Message) (older : List Message) :
    cfg.foldUnder tupleKey newest (old :: older) =
      (cfg.dataMergeTuples tupleKey old newest).bind fun m => cfg.foldUnder tupleKey m older := by
  rw [foldUnder, List.foldlM_cons]
  rfl

end DataConfig
end TreePass
