/-!
# Positions in a source file
-/

namespace Lowering.Source

/-- Line and column, from 1. Zero stands for no position. -/
structure Site where
  line : Nat := 0
  column : Nat := 0
  deriving DecidableEq, Repr, Inhabited

def Site.text (s : Site) : String := s!"{s.line}:{s.column}"

/-- A piece of source and where it stands. -/
structure Located (α : Type) where
  val : α
  site : Site := {}
  deriving Repr, Inhabited

namespace Located

variable {α β : Type}

def map (f : α → β) (x : Located α) : Located β := ⟨f x.val, x.site⟩

def text (render : α → String) (x : Located α) : String := render x.val ++ " at " ++ x.site.text

/-- Positions make no difference. -/
instance [BEq α] : BEq (Located α) := ⟨fun a b => a.val == b.val⟩

end Located

end Lowering.Source
