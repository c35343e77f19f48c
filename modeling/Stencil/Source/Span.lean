namespace Stencil

/-- The bytes from `start` up to, but not including, `stop`. -/
structure Span where
  start : Nat := 0
  stop : Nat := 0
  deriving DecidableEq, Repr, Inhabited

namespace Span

def join (a b : Span) : Span :=
  ⟨min a.start b.start, max a.stop b.stop⟩

def length (s : Span) : Nat :=
  s.stop - s.start

def isEmpty (s : Span) : Bool :=
  s.length == 0

def Within (s : Span) (size : Nat) : Prop :=
  s.start ≤ s.stop ∧ s.stop ≤ size

def Covers (outer inner : Span) : Prop :=
  outer.start ≤ inner.start ∧ inner.stop ≤ outer.stop

theorem join_covers_left (a b : Span) : (a.join b).Covers a := by
  simp only [Covers, join]; omega

theorem join_covers_right (a b : Span) : (a.join b).Covers b := by
  simp only [Covers, join]; omega

end Span

end Stencil
