/-!
# Random numbers

The numbers that a run draws at random are there from its beginning, each under an address of its
own. No address is asked for twice in a run, so a run may draw any numbers whatever.
-/

namespace Workflow

/-- A number drawn at random, at least zero and below one. -/
structure Draw where
  value : Float := 0.5
  nonneg : 0.0 ≤ value := by decide
  lt_one : value < 1.0 := by decide

instance : Inhabited Draw := ⟨{}⟩

def Draw.ofFloat (x : Float) : Draw :=
  if h : 0.0 ≤ x ∧ x < 1.0 then { value := x, nonneg := h.1, lt_one := h.2 } else default

/-- The numbers that may be drawn, by their addresses. -/
def Draws := List Nat → Draw

namespace Draws

instance : Inhabited Draws := ⟨fun _ => default⟩

/-- Those with an address that starts with `i`. -/
def part (draws : Draws) (i : Nat) : Draws :=
  fun address => draws (i :: address)

/-- The one with the address `k`, which none of the parts goes on from. -/
def number (draws : Draws) (k : Nat) : Draw :=
  draws [k]

end Draws

end Workflow
