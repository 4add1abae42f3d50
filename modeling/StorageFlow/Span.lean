/-!
# StorageFlow.Span

Source locations of tree nodes.

* `Span` — a range of byte offsets; `Span.synthetic` marks nodes that no source text produced.
* `Span.merge` — the least span that covers two others.
-/

namespace StorageFlow

/-- The range of byte offsets from `start` up to `stop`. -/
structure Span where
  start : Nat
  stop : Nat
  deriving DecidableEq

namespace Span

/-- The location of nodes that no source text produced. -/
def synthetic : Span := ⟨0, 0⟩

instance : Inhabited Span := ⟨synthetic⟩

/-- The least span that covers both `a` and `b`. -/
def merge (a b : Span) : Span :=
  ⟨min a.start b.start, max a.stop b.stop⟩

end Span

end StorageFlow
