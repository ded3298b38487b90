import ActionReprint.Path

/-!
What a run needs of the place where files are kept. Why a file cannot be read or
written is not told: no answer of this library depends on it.
-/

namespace ActionReprint

class Storage (m : Type → Type) where
  /-- The text of a file; none if it cannot be read or is not UTF-8. -/
  read : Path → m (Option String)
  isFile : Path → m Bool
  /-- Creates or replaces a file; false if that is not possible. -/
  write : Path → String → m Bool

end ActionReprint
