/-!
Symbols: names that are compared as texts.
-/

namespace HybridHeap

structure Symbol where
  name : String
  deriving Repr, DecidableEq, Inhabited

/-- Symbols are ordered as their names are, code point by code point. This is
also the order of the names' UTF-8 bytes. -/
instance : Ord Symbol := ⟨compareOn Symbol.name⟩

end HybridHeap
