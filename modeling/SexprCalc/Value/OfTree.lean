import SexprCalc.Text.Numeral
import SexprCalc.Text.Occurrence
import SexprCalc.Tree.Basic
import SexprCalc.Value.Basic

/-! The value that a tree stands for. The marker in its tag makes a node a number or a symbol; every
other node is the list of its children, without parentheses and anchors. -/

namespace SexprCalc

open Text

namespace Tree

def marked (t : Tree) (marker : String) : Bool :=
  occursIn marker.toList t.tag.toList

def isPunctuation (t : Tree) : Bool :=
  t.contents == "(" || t.contents == ")" || t.tag == Tag.anchor

end Tree

namespace Value

def ofNumeral (text : String) : Value :=
  match Numeral.read? text.toList with
  | some n => .number n
  | none => Fault.badNumeral.value

mutual

def ofTree : Tree → Value
  | ⟨tag, contents, children⟩ =>
    if Tree.marked ⟨tag, contents, children⟩ "number" then ofNumeral contents
    else if Tree.marked ⟨tag, contents, children⟩ "symbol" then .symbol contents
    else .list (ofTreeEach [] children)

def ofTreeEach (done : List Value) : List Tree → List Value
  | [] => done.reverse
  | t :: ts => if t.isPunctuation then ofTreeEach done ts else ofTreeEach (ofTree t :: done) ts

end

theorem ofTreeEach_eq (done : List Value) (ts : List Tree) :
    ofTreeEach done ts = done.reverse ++ (ts.filter fun t => !t.isPunctuation).map ofTree := by
  induction ts generalizing done with
  | nil => simp [ofTreeEach]
  | cons t ts ih => by_cases h : t.isPunctuation = true <;> simp [ofTreeEach, h, ih]

theorem ofTree_eq (t : Tree) :
    ofTree t =
      if t.marked "number" then ofNumeral t.contents
      else if t.marked "symbol" then .symbol t.contents
      else .list ((t.children.filter fun c => !c.isPunctuation).map ofTree) := by
  obtain ⟨tag, contents, children⟩ := t
  rw [ofTree, ofTreeEach_eq]
  rfl

end Value

end SexprCalc
