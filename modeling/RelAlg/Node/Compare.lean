import RelAlg.Node.Basic

/-!
# Comparison of nodes

Nodes are the same if they have the same operator, name, attributes and operands; `Node.compare` tells, or fails where a node
with a condition meets one that has none, and `Node.differs` tells the opposite. Attributes count as they are written, and
listings by `Listing.same`.
-/

namespace RelAlg

namespace Node

/-- Compare a node with something that has no condition and is of another kind: it differs, unless the node has a condition
to be compared. -/
def compareOther (n : Node) : Except Error Bool := if n.condition?.isSome then .error .incomparable else .ok false

/-- Compare two nodes where the right one decides how if the left one is bare, and else `otherwise` does. -/
def compareBare (m n : Node) (otherwise : Except Error Bool) : Except Error Bool :=
  match m, n with
  | bare a, bare b => .ok (a.same b)
  | bare _, n => n.compareOther
  | _, _ => otherwise

/-- Compare two operands of the algebra. The left one decides how: a node with a condition can be compared only with
another that has one. -/
def compareOperand : Node → Node → Except Error Bool
  | relation h, relation k => .ok (h.same k)
  | select h c m, select k d n => if c = d && h.same k then m.compareOperand n else .ok false
  | project h m, project k n => if h.same k then m.compareOperand n else .ok false
  | rename h m, rename k n => if h.same k then m.compareOperand n else .ok false
  | assign h m, assign k n => if h.same k then m.compareOperand n else .ok false
  | join h op l r, join k op' l' r' =>
    if op = op' && h.same k then do
      if ← l.compareOperand l' then r.compareOperand r' else return false
    else if (join h op l r).condition?.isSome && (join k op' l' r').condition?.isNone then .error .incomparable
    else .ok false
  | setOperation h op l r, setOperation k op' l' r' =>
    if op = op' && h.same k then do
      if ← l.compareOperand l' then r.compareOperand r' else return false
    else .ok false
  | primaryKey r a, primaryKey s b => .ok (a.same b && r.same s)
  | pair k r a m, pair l s b n =>
    if k = l && a.same b && r.same s then compareBare m n (m.compareOperand n) else .ok false
  | inclusion k rs a l r, inclusion k' ss b l' r' =>
    if k = k' && a.same b && rs.same ss then do
      if ← compareBare l l' (l.compareOperand l') then compareBare r r' (r.compareOperand r') else return false
    else .ok false
  | bare a, bare b => .ok (a.same b)
  | m, n => if m.condition?.isSome && n.condition?.isNone then .error .incomparable else .ok false

/-- Compare two nodes. -/
def compare (m n : Node) : Except Error Bool := compareBare m n (m.compareOperand n)

/-- Whether two nodes differ, where they can be compared. -/
def differs (m n : Node) : Except Error Bool := return !(← m.compare n)

end Node

end RelAlg
