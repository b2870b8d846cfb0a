/-
# Named — finite types whose members have a spelling

Reports, log lines and requests name the members of the small finite types
of this library by fixed words.  A `Named` type lists all of its members
and gives each its word; `Named.find?` reads a word back.
-/

namespace PixelPipeline

/-- A finite type, listed in full, whose members have a spelling. -/
class Named (α : Type) where
  /-- Every member, in declaration order. -/
  members : List α
  /-- The word for a member. -/
  spelling : α → String
  /-- The list leaves no member out. -/
  mem_members : ∀ a, a ∈ members

/-- The member a word stands for. -/
def Named.find? (α : Type) [Named α] (word : String) : Option α :=
  (Named.members (α := α)).find? (fun a => Named.spelling a == word)

end PixelPipeline
