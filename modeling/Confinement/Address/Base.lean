import Confinement.Access.Plan
import Confinement.Region

/-!
# The base of the region inside a function

A function that is being confined loads the base of the region at most once, in front of all its
other instructions. The load is put there by the first step that asks for it and remembered for the
others, so it stands before every use.
-/

set_option autoImplicit false

namespace Confinement

/-- What is known about the base inside one function. -/
structure BaseCache where
  /-- The variable that holds the base. -/
  symbol : GlobalId
  /-- The instruction that loads it, once there is one. -/
  loaded : Option InstId
  deriving DecidableEq, Inhabited

/-- Nothing is loaded yet. -/
def BaseCache.start (symbol : GlobalId) : BaseCache where
  symbol := symbol
  loaded := none

/-- A function that is being confined. -/
structure Draft where
  /-- The function as it stands. -/
  func : Func
  /-- Its load of the base. -/
  base : BaseCache
  deriving DecidableEq, Inhabited

/-- A step of work on a draft; what was done before a fault stays done. -/
abbrev Drafting := EStateM Fault Draft

namespace Drafting

/-- An edit of the function. -/
def edit {α : Type} (action : Edit α) : Drafting α := fun draft =>
  match action draft.func with
  | .ok a func => .ok a { draft with func }
  | .error fault func => .error fault { draft with func }

/-- The instruction that loads the base; it is put at the head of the entry block if there is none
yet. -/
def loadBase : Drafting InstId := do
  let draft ← get
  match draft.base.loaded with
  | some id => return id
  | none =>
    match draft.func.entry? with
    | none => throw (.noBody draft.func.name)
    | some entry =>
      let id ← edit (.insertAtHead entry (.load (.global draft.base.symbol)) (.int 64))
      modify fun draft => { draft with base := { draft.base with loaded := some id } }
      return id

end Drafting

end Confinement
