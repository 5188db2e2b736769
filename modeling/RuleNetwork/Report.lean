import RuleNetwork.Fault
import RuleNetwork.Json.Value

/-!
Reports as they are handed out: their content, whether the analysis came to an end, and the faults
that it names. The content of a failed report is empty.
-/

set_option autoImplicit false

namespace RuleNetwork

def ErrorEntry.toJson (e : ErrorEntry) : Json :=
  .obj [("type", .str e.kind.code), ("message", .str e.message), ("rule", .ofOption .str e.rule)]

structure Report (α : Type) where
  success : Bool := true
  errors : List ErrorEntry := []
  content : α
  deriving Repr

/-- What a report's content writes, field by field. -/
class Fields (α : Type) where
  fields : α → List (String × Json)

namespace Report

variable {α : Type}

def ofResult [Inhabited α] : Except Fault α → Report α
  | .ok a => { content := a }
  | .error f => ⟨false, [f.entry], default⟩

def toJson [Fields α] (r : Report α) : Json :=
  .obj (("success", .bool r.success) :: ("errors", .ofList ErrorEntry.toJson r.errors) ::
    Fields.fields r.content)

end Report

end RuleNetwork
