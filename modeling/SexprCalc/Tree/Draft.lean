import SexprCalc.Token.Scan
import SexprCalc.Tree.Basic

/-! Reading a text into a tree. A draft is a tree under construction: the expressions of the root so
far and the groups that are still open. Tokens go into the draft one by one, so the fault that comes
first in the text is the one reported. -/

namespace SexprCalc

structure OpenGroup where
  start : Nat
  expressions : List Tree

/-- The open groups, innermost first, and the finished expressions of the root. Expressions come
latest first, in a group as well. -/
structure Draft where
  groups : List OpenGroup
  expressions : List Tree

namespace Draft

def empty : Draft := ⟨[], []⟩

def add (t : Tree) : Draft → Draft
  | ⟨[], ts⟩ => ⟨[], t :: ts⟩
  | ⟨g :: gs, ts⟩ => ⟨⟨g.start, t :: g.expressions⟩ :: gs, ts⟩

def step (d : Draft) (t : Located Token) : Except ReadError Draft :=
  match t.item with
  | .opening =>
    if d.groups.length < maxNestingDepth then .ok ⟨⟨t.offset, []⟩ :: d.groups, d.expressions⟩
    else .error (.tooDeep t.offset)
  | .closing =>
    match d.groups with
    | [] => .error (.unbalanced t.offset)
    | g :: gs => .ok (add (.group g.expressions.reverse) ⟨gs, d.expressions⟩)
  | .number s => .ok (d.add (.number s))
  | .symbol s => .ok (d.add (.symbol s))

def steps : Draft → List (Located Token) → Except ReadError Draft
  | d, [] => .ok d
  | d, t :: ts =>
    match d.step t with
    | .ok d => d.steps ts
    | .error e => .error e

def finish (d : Draft) : Except ReadError Tree :=
  match d.groups with
  | [] => .ok (.root d.expressions.reverse)
  | g :: _ => .error (.unbalanced g.start)

theorem steps_append (d : Draft) (ts us : List (Located Token)) :
    d.steps (ts ++ us) =
      match d.steps ts with
      | .ok d => d.steps us
      | .error e => .error e := by
  induction ts generalizing d with
  | nil => rfl
  | cons t ts ih =>
    simp only [List.cons_append, steps]
    split
    · exact ih _
    · rfl

end Draft

/-- The tree of a scan. A character that stopped the scan counts only if no token before it is at
fault. -/
def Tree.ofScan (scan : Scan) : Except ReadError Tree :=
  match Draft.empty.steps scan.tokens, scan.stop with
  | .error e, _ => .error e
  | .ok _, some c => .error (.unrecognized c.offset c.item)
  | .ok d, none => d.finish

def Tree.read (text : String) : Except ReadError Tree :=
  Tree.ofScan (Scan.ofText text)

end SexprCalc
