import Mathlib

/-!
# Delimited fields

A list of fields written one after the other, each followed by a separator. Nothing is escaped, so
the fields can be told apart only when none of them contains the separator.
-/

namespace Delimited

variable {α : Type}

/-- The fields, each with the separator behind it. -/
def joined (sep : α) (fields : List (List α)) : List α := fields.flatMap fun field => field ++ [sep]

/-- No field contains the separator. -/
def Clean (sep : α) (fields : List (List α)) : Prop := ∀ field ∈ fields, sep ∉ field

end Delimited
