/-! Tagged trees. A tag names the rules that a piece of text matched, from the outermost inward; a
leaf holds the matched text, a branch holds the parts, parentheses and anchors included. -/

namespace SexprCalc

structure Tree where
  tag : String
  contents : String
  children : List Tree

namespace Tree

namespace Tag

def root : String := ">"
def anchor : String := "regex"
def paren : String := "char"
def number : String := "expr|number|regex"
def symbol : String := "expr|symbol|char"
def group : String := "expr|sexpr|>"

end Tag

def leaf (tag contents : String) : Tree :=
  ⟨tag, contents, []⟩

def branch (tag : String) (children : List Tree) : Tree :=
  ⟨tag, "", children⟩

def anchor : Tree := leaf Tag.anchor ""

def number (text : String) : Tree := leaf Tag.number text

def symbol (text : String) : Tree := leaf Tag.symbol text

def group (expressions : List Tree) : Tree :=
  branch Tag.group (leaf Tag.paren "(" :: expressions ++ [leaf Tag.paren ")"])

def root (expressions : List Tree) : Tree :=
  branch Tag.root (anchor :: expressions ++ [anchor])

@[elab_as_elim, induction_eliminator]
theorem induction {motive : Tree → Prop}
    (node : ∀ tag contents children, (∀ t ∈ children, motive t) → motive ⟨tag, contents, children⟩)
    (t : Tree) : motive t := by
  refine Tree.rec (motive_1 := motive) (motive_2 := fun ts => ∀ t ∈ ts, motive t) node ?_ ?_ t
  · simp
  · intro t ts ht hts u hu
    rcases List.mem_cons.mp hu with rfl | hu
    · exact ht
    · exact hts u hu

mutual

def fold {α : Type} (combine : String → String → List α → α) : Tree → α
  | ⟨tag, contents, children⟩ => combine tag contents (foldEach combine [] children)

def foldEach {α : Type} (combine : String → String → List α → α) (done : List α) :
    List Tree → List α
  | [] => done.reverse
  | t :: ts => foldEach combine (fold combine t :: done) ts

end

variable {α : Type} (combine : String → String → List α → α)

theorem foldEach_eq (done : List α) (ts : List Tree) :
    foldEach combine done ts = done.reverse ++ ts.map (fold combine) := by
  induction ts generalizing done with
  | nil => simp [foldEach]
  | cons t ts ih => simp [foldEach, ih]

theorem fold_node (tag contents : String) (children : List Tree) :
    fold combine ⟨tag, contents, children⟩ =
      combine tag contents (children.map (fold combine)) := by
  simp [fold, foldEach_eq]

def size : Tree → Nat :=
  fold fun _ _ sizes => 1 + sizes.foldr Nat.add 0

theorem size_node (tag contents : String) (children : List Tree) :
    size ⟨tag, contents, children⟩ = 1 + (children.map size).foldr Nat.add 0 :=
  fold_node _ tag contents children

end Tree

end SexprCalc
