import Workflow.Context

/-!
# Families of contexts

Contexts and their copies. A copy has data, history and path of its own but shares the cancellation
of the context that it was made from, unless it is detached: contexts with the same token are
cancelled together.
-/

namespace Workflow

structure Member where
  context : Context
  token : Nat

/-- The members of a family in the order in which they were added; one of them is current. -/
structure Family where
  members : List Member
  cursor : Nat := 0
  /-- The tokens that are cancelled. -/
  cancelled : List Nat := []

namespace Family

def of (context : Context) : Family :=
  { members := [⟨context, 0⟩] }

def current? (family : Family) : Option Member :=
  family.members[family.cursor]?

def context (family : Family) : Context :=
  (family.current?.map Member.context).getD default

def update (family : Family) (f : Context → Context) : Family :=
  { family with
    members := family.members.modify family.cursor fun member =>
      { member with context := f member.context } }

def isCancelled (family : Family) : Bool :=
  family.current?.any fun member => family.cancelled.contains member.token

/-- Cancels the current member and all that share its token. -/
def cancel (family : Family) : Family :=
  match family.current? with
  | some member => { family with cancelled := member.token :: family.cancelled }
  | none => family

def freshToken (family : Family) : Nat :=
  (family.members.map (·.token + 1)).foldl max 0

def add (family : Family) (member : Member) : Family :=
  { family with members := family.members ++ [member] }

def copy (family : Family) : Family :=
  match family.current? with
  | some member => family.add member
  | none => family

def detach (family : Family) : Family :=
  family.add ⟨family.context, family.freshToken⟩

def addEmpty (family : Family) (identity : Identity) : Family :=
  family.add ⟨{ identity }, family.freshToken⟩

def select (family : Family) (i : Nat) : Family :=
  { family with cursor := i }

def mergeFrom (family : Family) (i : Nat) : Family :=
  match family.members[i]? with
  | some member => family.update (·.merge member.context.data)
  | none => family

end Family

end Workflow
