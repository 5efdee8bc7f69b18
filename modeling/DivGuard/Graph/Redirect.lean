import DivGuard.Graph.Basic

/-!
# Redirecting uses

Replaces a node by another: every use of the old one names the new one afterwards, and the old one
is deleted.  Both must be live; the old one is asked for first.
-/

namespace DivGuard.Graph

/-- The graph with every use of `old` turned to `new` and slot `old` emptied. -/
def redirect (g : Graph) (old new : NodeId) : Graph :=
  let slots := g.slots.map (Option.map (Node.redirect old new))
  { g with slots := slots.setIfInBounds old none }

theorem node?_redirect (g : Graph) (old new id : NodeId) :
    (g.redirect old new).node? id =
      if id = old then none else (g.node? id).map (Node.redirect old new) := by
  unfold node? redirect
  by_cases h : id = old
  · subst h
    by_cases hs : id < g.slots.size <;> simp [hs]
  · simp only [Array.getElem?_setIfInBounds, h, if_false, Ne.symm h, Array.getElem?_map]
    cases g.slots[id]? with
    | none => rfl
    | some slot => cases slot <;> rfl

def replace (g : Graph) (old new : NodeId) : Except UnitError Graph :=
  if !g.contains old then .error (.invalidNode old)
  else if !g.contains new then .error (.invalidNode new)
  else .ok (g.redirect old new)

end DivGuard.Graph
