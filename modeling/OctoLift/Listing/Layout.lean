/-!
# Layout

How a listing is laid out.
-/

namespace OctoLift

/-- One level of indentation. -/
inductive Indent where
  | tab
  | spaces (width : Nat)
  deriving DecidableEq, Repr, Inhabited

def Indent.at (indent : Indent) (depth : Nat) : String :=
  match indent with
  | tab => String.ofList (List.replicate depth '\t')
  | spaces width => String.ofList (List.replicate (width * depth) ' ')

structure Layout where
  /-- Whether the listing opens with a remark on each choice of the dialect. -/
  remarks : Bool := true
  indent : Indent := .tab
  deriving DecidableEq, Repr

instance : Inhabited Layout := ⟨{}⟩

end OctoLift
