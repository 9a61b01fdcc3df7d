import SexprCalc.Tree.Basic

namespace SexprCalc.Tree

structure OutlineRow where
  depth : Nat
  tag : String
  contents : String
  deriving DecidableEq, Repr

def outlineFrom : Tree → Nat → List OutlineRow :=
  fold fun tag contents parts depth =>
    ⟨depth, tag, contents⟩ :: parts.flatMap fun part => part (depth + 1)

def outline (t : Tree) : List OutlineRow :=
  t.outlineFrom 0

/-- Puts a row before the trees that come after it, each with its depth. The first of them become
children as long as they are deeper. -/
def graft (r : OutlineRow) (trees : List (Nat × Tree)) : List (Nat × Tree) :=
  (r.depth, ⟨r.tag, r.contents, (trees.takeWhile fun p => r.depth < p.1).map Prod.snd⟩) ::
    trees.dropWhile fun p => r.depth < p.1

def ofOutline? (rows : List OutlineRow) : Option Tree :=
  match rows.foldr graft [] with
  | [(0, t)] => some t
  | _ => none

theorem outlineFrom_node (tag contents : String) (children : List Tree) (depth : Nat) :
    outlineFrom ⟨tag, contents, children⟩ depth =
      ⟨depth, tag, contents⟩ :: children.flatMap fun t => t.outlineFrom (depth + 1) := by
  simp only [outlineFrom, fold_node, List.flatMap_map]

theorem graft_children (r : OutlineRow) (children : List Tree) (trees : List (Nat × Tree))
    (h : ∀ p ∈ trees.head?, p.1 ≤ r.depth) :
    graft r (children.map (fun t => (r.depth + 1, t)) ++ trees) =
      (r.depth, ⟨r.tag, r.contents, children⟩) :: trees := by
  have deeper : ∀ p ∈ children.map (fun t => (r.depth + 1, t)), decide (r.depth < p.1) = true := by
    simp
  rw [graft, List.takeWhile_append_of_pos deeper, List.dropWhile_append_of_pos deeper]
  cases trees with
  | nil => simp [Function.comp_def]
  | cons p ps => simp [Nat.not_lt.mpr (h p rfl), Function.comp_def]

theorem foldr_graft_outlineFrom (t : Tree) (depth : Nat) (trees : List (Nat × Tree))
    (h : ∀ p ∈ trees.head?, p.1 ≤ depth) :
    (t.outlineFrom depth).foldr graft trees = (depth, t) :: trees := by
  induction t generalizing depth trees with
  | node tag contents children ih =>
    have forest (ts : List Tree) (hts : ∀ t ∈ ts, t ∈ children) :
        (ts.flatMap fun t => t.outlineFrom (depth + 1)).foldr graft trees =
          ts.map (fun t => (depth + 1, t)) ++ trees := by
      induction ts with
      | nil => rfl
      | cons t ts ihs =>
        rw [List.flatMap_cons, List.foldr_append, ihs fun u hu => hts u (List.mem_cons_of_mem t hu)]
        apply ih t (hts t List.mem_cons_self)
        cases ts with
        | nil => exact fun p hp => Nat.le_succ_of_le (h p hp)
        | cons u us => simp
    rw [outlineFrom_node, List.foldr_cons, forest children fun _ h => h]
    exact graft_children ⟨depth, tag, contents⟩ children trees h

theorem ofOutline?_outline (t : Tree) : ofOutline? t.outline = some t := by
  simp only [ofOutline?, outline, foldr_graft_outlineFrom t 0 [] (by simp)]

end SexprCalc.Tree
