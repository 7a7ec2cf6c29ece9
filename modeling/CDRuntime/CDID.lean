import Mathlib.Algebra.Group.Nat.Defs
import Mathlib.Data.List.Basic

namespace CDRuntime

/-- `CDExecMode`; `kRecreated` is never set. -/
inductive ExecMode where
  | execution | reexecution | suspension
  deriving DecidableEq, Repr, Inhabited

structure CDNameT where
  level : UInt32
  phase : UInt32
  rankInLevel : UInt32
  size : UInt32
  deriving DecidableEq, Repr, Inhabited

/-- A communicator and a group are opaque 64-bit handles. -/
structure NodeID where
  taskInColor : Int32
  head : Int32
  size : Int32
  colorId : Int32
  color : UInt64
  taskGroup : UInt64
  deriving DecidableEq, Repr, Inhabited

structure CDID where
  cdName : CDNameT
  nodeId : NodeID
  domainId : UInt32
  objectId : UInt32
  sequentialId : UInt32
  deriving DecidableEq, Repr, Inhabited

/-- `NodeID::operator==`: the head, the color number and the group are not compared. -/
def NodeID.same (a b : NodeID) : Bool :=
  a.color == b.color && a.taskInColor == b.taskInColor && a.size == b.size

def CDNameT.same (a b : CDNameT) : Bool :=
  a.level == b.level && a.phase == b.phase && a.rankInLevel == b.rankInLevel && a.size == b.size

/-- `CDID::operator==`: neither the domain nor the object number is compared. -/
def CDID.same (a b : CDID) : Bool :=
  a.nodeId.same b.nodeId && a.cdName.same b.cdName && a.sequentialId == b.sequentialId

theorem CDID.same_refl (a : CDID) : a.same a = true := by
  simp [CDID.same, NodeID.same, CDNameT.same]

end CDRuntime
