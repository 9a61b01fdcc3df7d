import SexprCalc.Proofs.Scanning
import SexprCalc.Tree.Basic

namespace SexprCalc

lemma foldr_max_le_iff {α : Type} {f : α → Nat} {xs : List α} {n : Nat} :
    (xs.map f).foldr max 0 ≤ n ↔ ∀ x ∈ xs, f x ≤ n := by
  induction xs with
  | nil => exact ⟨fun _ x hx => absurd hx List.not_mem_nil, fun _ => Nat.zero_le n⟩
  | cons x xs ih => rw [List.map_cons, List.foldr_cons, Nat.max_le, ih, List.forall_mem_cons]

namespace Tree

inductive IsExpression : Tree → Prop
  | number {s} : Token.IsNumeral s → IsExpression ⟨Tag.number, s, []⟩
  | symbol {s} : Token.IsOperator s → IsExpression ⟨Tag.symbol, s, []⟩
  | group {ts} : (∀ t ∈ ts, IsExpression t) →
      IsExpression ⟨Tag.group, "", ⟨Tag.paren, "(", []⟩ :: ts ++ [⟨Tag.paren, ")", []⟩]⟩

inductive IsSentence : Tree → Prop
  | root {ts} : (∀ t ∈ ts, IsExpression t) →
      IsSentence ⟨Tag.root, "", ⟨Tag.anchor, "", []⟩ :: ts ++ [⟨Tag.anchor, "", []⟩]⟩

def token? (tag contents : String) : Option Token :=
  if tag = Tag.number then some (.number contents)
  else if tag = Tag.symbol then some (.symbol contents)
  else if tag = Tag.paren ∧ contents = "(" then some .opening
  else if tag = Tag.paren ∧ contents = ")" then some .closing
  else none

def yield : Tree → List Token :=
  fold fun tag contents parts => (token? tag contents).toList ++ parts.flatten

def nesting : Tree → Nat :=
  fold fun tag _ parts => parts.foldr max 0 + if tag = Tag.group then 1 else 0

lemma yield_node (tag contents : String) (children : List Tree) :
    yield ⟨tag, contents, children⟩ =
      (token? tag contents).toList ++ children.flatMap yield := by
  simp only [yield, fold_node, List.flatMap]

lemma nesting_node (tag contents : String) (children : List Tree) :
    nesting ⟨tag, contents, children⟩ =
      (children.map nesting).foldr max 0 + if tag = Tag.group then 1 else 0 :=
  fold_node _ tag contents children

lemma yield_group (ts : List Tree) :
    (group ts).yield = .opening :: ts.flatMap yield ++ [.closing] := by
  have ho : yield (leaf Tag.paren "(") = [.opening] := rfl
  have hc : yield (leaf Tag.paren ")") = [.closing] := rfl
  have hg : token? Tag.group "" = none := rfl
  simp only [group, branch, yield_node, hg, List.cons_append, List.flatMap_cons,
    List.flatMap_append, ho, hc, List.flatMap_nil]
  rfl

lemma yield_root (ts : List Tree) : (root ts).yield = ts.flatMap yield := by
  have ha : yield anchor = [] := rfl
  have hr : token? Tag.root "" = none := rfl
  simp [root, branch, yield_node, hr, ha]

lemma nesting_group_le_iff {ts : List Tree} {n : Nat} :
    (group ts).nesting ≤ n + 1 ↔ ∀ t ∈ ts, t.nesting ≤ n := by
  have hp (s : String) : nesting (leaf Tag.paren s) = 0 := rfl
  rw [group, branch, nesting_node, if_pos rfl, Nat.add_le_add_iff_right, foldr_max_le_iff]
  simp [hp, or_imp, forall_and]

lemma nesting_group_pos (ts : List Tree) : 0 < (group ts).nesting := by
  rw [group, branch, nesting_node, if_pos rfl]
  exact Nat.succ_pos _

lemma nesting_root_le_iff {ts : List Tree} {n : Nat} :
    (root ts).nesting ≤ n ↔ ∀ t ∈ ts, t.nesting ≤ n := by
  have ha : nesting anchor = 0 := rfl
  rw [root, branch, nesting_node, if_neg (by decide), Nat.add_zero, foldr_max_le_iff]
  simp [ha, or_imp, forall_and]

lemma foldr_size {ts : List Tree} (h : ∀ t ∈ ts, t.size = t.yield.length + t.yield.count .opening)
    (n : Nat) : (ts.map size).foldr Nat.add n =
      (ts.flatMap yield).length + (ts.flatMap yield).count .opening + n := by
  induction ts with
  | nil => simp
  | cons t ts ih =>
    obtain ⟨ht, hts⟩ := List.forall_mem_cons.mp h
    rw [List.map_cons, List.foldr_cons, ih hts, ht, List.flatMap_cons, List.length_append,
      List.count_append]
    simp only [Nat.add_eq]
    omega

lemma size_between {tag : String} {first last : Tree} {ts : List Tree} (hf : first.size = 1)
    (hl : last.size = 1) (h : ∀ t ∈ ts, t.size = t.yield.length + t.yield.count .opening) :
    (branch tag (first :: ts ++ [last])).size =
      3 + (ts.flatMap yield).length + (ts.flatMap yield).count .opening := by
  rw [branch, size_node, List.map_append, List.map_cons, List.cons_append, List.foldr_cons,
    List.foldr_append, List.map_singleton, List.foldr_cons, hf, hl, foldr_size h]
  simp only [Nat.add_eq, List.foldr_nil]
  omega

lemma IsExpression.size_eq {t : Tree} (h : t.IsExpression) :
    t.size = t.yield.length + t.yield.count .opening := by
  induction h with
  | number _ => rfl
  | symbol _ => rfl
  | @group ts _ ih =>
    have hs : (Tree.group ts).size = _ := size_between rfl rfl ih
    change (Tree.group ts).size = (Tree.group ts).yield.length + (Tree.group ts).yield.count _
    rw [hs, yield_group]
    simp
    omega

lemma IsSentence.size_eq {t : Tree} (h : t.IsSentence) :
    t.size = 3 + t.yield.length + t.yield.count .opening := by
  cases h with
  | @root ts hts =>
    change (Tree.root ts).size = 3 + (Tree.root ts).yield.length + (Tree.root ts).yield.count _
    rw [yield_root]
    exact size_between rfl rfl fun t ht => (hts t ht).size_eq

end Tree

end SexprCalc
