/-!
# Results of rewriting

A pass over a tree gives the new tree and tells whether it is a different one. Results of parts are
put together with the maps below, which keep the answer for the whole.
-/

namespace MiniJava.Constants

/-- What a pass makes of a tree, and whether it replaced or removed anything. -/
structure Rewrite (α : Type) where
  node : α
  changed : Bool

namespace Rewrite

variable {α β γ δ : Type}

/-- The result for a node with one part. -/
def map (f : α → β) (a : Rewrite α) : Rewrite β :=
  ⟨f a.node, a.changed⟩

/-- The result for a node with two parts. -/
def map₂ (f : α → β → γ) (a : Rewrite α) (b : Rewrite β) : Rewrite γ :=
  ⟨f a.node b.node, a.changed || b.changed⟩

/-- The result for a node with three parts. -/
def map₃ (f : α → β → γ → δ) (a : Rewrite α) (b : Rewrite β) (c : Rewrite γ) : Rewrite δ :=
  ⟨f a.node b.node c.node, a.changed || b.changed || c.changed⟩

end Rewrite

end MiniJava.Constants
