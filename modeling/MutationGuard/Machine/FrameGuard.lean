import MutationGuard.Policy.Permission

/-!
The restriction in force for a frame, and what it denies. A frame without a restriction may mutate
anything. A frame may restrict itself, and may lift or replace what it declared; the frames it calls
inherit the restriction, cannot lift it, and can only narrow it. While any restriction is in force,
delegated calls and self-destruction are denied, and every other mutation needs a permission for
each address it touches.
-/

namespace MutationGuard

/-- The restriction in force for a frame. -/
inductive FrameGuard where
  /-- No restriction. -/
  | unrestricted
  /-- The frame restricted itself. -/
  | declared (permissions : PermissionSet)
  /-- A frame further up is restricted. -/
  | inherited (permissions : PermissionSet)
  deriving DecidableEq, Inhabited

/-- A single mutation that a frame attempts. -/
inductive Mutation where
  /-- Installing code at the address. -/
  | code (address : Address)
  /-- Bumping the address's nonce. -/
  | nonce (address : Address)
  /-- Moving value into or out of the address. -/
  | balance (address : Address)
  /-- Writing a slot of persistent storage. -/
  | storage (address : Address) (key : Key)
  /-- Writing a slot of transient storage. -/
  | transientStorage (address : Address) (key : Key)
  /-- Running foreign code against the frame's own state. -/
  | delegateCall
  /-- Destroying the address. -/
  | selfDestruct (address : Address)
  deriving DecidableEq

namespace Mutation

/-- The mutation as messages show it. -/
def describe : Mutation → String
  | code a => "Code(" ++ a.hex ++ ")"
  | nonce a => "Nonce(" ++ a.hex ++ ")"
  | balance a => "Balance(" ++ a.hex ++ ")"
  | storage a k => "Storage(" ++ a.hex ++ ", " ++ k.hex ++ ")"
  | transientStorage a k => "TransientStorage(" ++ a.hex ++ ", " ++ k.hex ++ ")"
  | delegateCall => "DelegateCall"
  | selfDestruct a => "SelfDestruct(" ++ a.hex ++ ")"

/-- The mutations of a call that carries value, in the order they are checked. -/
def ofValueCall (sender recipient : Address) (value : Word) : List Mutation :=
  if value = 0 then [] else [balance sender, balance recipient]

/-- The mutations of creating an account, in the order they are checked. -/
def ofCreate (creator created : Address) (value : Word) : List Mutation :=
  [code created, nonce created, nonce creator] ++
    if value = 0 then [] else [balance creator, balance created]

end Mutation

/-- A mutation that the restriction does not permit. -/
structure Denied where
  mutation : Mutation
  deriving DecidableEq

/-- The text of the error. -/
def Denied.message (d : Denied) : String := "mutation denied: " ++ d.mutation.describe

namespace PermissionSet

/-- Whether a restriction to the set permits the mutation. -/
def permits (s : PermissionSet) : Mutation → Bool
  | .code a => s.allows a .code
  | .nonce a => s.allows a .nonce
  | .balance a => s.allows a .balance
  | .storage a k => s.allowsSlot a k
  | .transientStorage a k => s.allowsTransientSlot a k
  | .delegateCall | .selfDestruct _ => false

end PermissionSet

namespace FrameGuard

/-- Whether a restriction is in force. -/
def isActive : FrameGuard → Bool
  | unrestricted => false
  | declared _ | inherited _ => true

/-- The permissions in force; none are needed without a restriction. -/
def permissions : FrameGuard → PermissionSet
  | unrestricted => ∅
  | declared p | inherited p => p

/-- Where the restriction came from, by name. -/
def origin : FrameGuard → String
  | unrestricted => "None"
  | declared _ => "Local"
  | inherited _ => "Inherited"

/-- The restriction handed to a child frame. -/
def child : FrameGuard → FrameGuard
  | unrestricted => unrestricted
  | declared p | inherited p => inherited p

/-- Lifts the frame's own restriction. An inherited one stays. -/
def disable : FrameGuard → FrameGuard
  | unrestricted | declared _ => unrestricted
  | inherited p => inherited p

/-- Restricts the frame to a declared set: in place of its own restriction, or on top of an
inherited one. -/
def enable (guard : FrameGuard) (set : PermissionSet) : FrameGuard :=
  match guard with
  | unrestricted | declared _ => declared set
  | inherited p => inherited (p.intersect set)

/-- Whether the restriction leaves the mutation to the frame. -/
def permits : FrameGuard → Mutation → Bool
  | unrestricted, _ => true
  | declared p, m | inherited p, m => p.permits m

/-- Fails if the restriction denies the mutation. -/
def check (guard : FrameGuard) (m : Mutation) : Except Denied Unit :=
  if guard.permits m then .ok () else .error ⟨m⟩

/-- Fails with the first mutation that the restriction denies. -/
def checkAll (guard : FrameGuard) (ms : List Mutation) : Except Denied Unit :=
  ms.forM guard.check

end FrameGuard
end MutationGuard
