import SexprCalc.Proofs.Brackets
import SexprCalc.Proofs.Spelling
import SexprCalc.Proofs.Translation
import SexprCalc.Value.Printer

namespace SexprCalc.Value

open Text Scan

inductive Readable : Value → Prop
  | number (n : Int64) : Readable (.number n)
  | symbol {s} : Token.IsOperator s → Readable (.symbol s)
  | list {cells} : (∀ v ∈ cells, Readable v) → Readable (.list cells)

def depth : Value → Nat :=
  fold (fun _ => 0) (fun _ => 0) (fun _ => 0) fun depths => 1 + depths.foldr max 0

def tree : Value → Tree :=
  fold (fun n => .number (String.ofList (Numeral.write n))) (fun _ => .number "") .symbol .group

def joined (cells : List Value) : List Char :=
  [' '].intercalate (cells.map fun v => v.render.toList)

lemma depth_list (cells : List Value) :
    depth (.list cells) = 1 + (cells.map depth).foldr max 0 :=
  fold_list ..

lemma depth_list_le_iff {cells : List Value} {n : Nat} :
    depth (.list cells) ≤ n + 1 ↔ ∀ v ∈ cells, v.depth ≤ n := by
  rw [depth_list, Nat.add_comm, Nat.add_le_add_iff_right, foldr_max_le_iff]

lemma tree_list (cells : List Value) : tree (.list cells) = .group (cells.map tree) :=
  fold_list ..

lemma nesting_tree_le_iff {v : Value} {n : Nat} : v.tree.nesting ≤ n ↔ v.depth ≤ n := by
  induction v generalizing n with
  | number m => exact Iff.rfl
  | failure m => exact Iff.rfl
  | symbol s => exact Iff.rfl
  | list cells ih =>
    rw [tree_list]
    cases n with
    | zero =>
      have ht := Tree.nesting_group_pos (cells.map tree)
      rw [depth_list]
      omega
    | succ n =>
      rw [Tree.nesting_group_le_iff, depth_list_le_iff, List.forall_mem_map]
      exact forall₂_congr fun v hv => ih v hv

lemma joined_cons_cons (v w : Value) (vs : List Value) :
    joined (v :: w :: vs) = v.render.toList ++ ' ' :: joined (w :: vs) := by
  simp [joined]

lemma toList_render_number (n : Int64) :
    (render (.number n)).toList = (String.ofList (Numeral.write n)).toList := by
  simp [toList_render, pieces, fold]

lemma toList_render_symbol (s : String) : (render (.symbol s)).toList = s.toList := by
  simp [toList_render, pieces, fold]

lemma toList_render_list (cells : List Value) :
    (render (.list cells)).toList = '(' :: joined cells ++ [')'] := by
  have hj : ([" "].intercalate (cells.map pieces)).flatMap String.toList = joined cells := by
    induction cells with
    | nil => rfl
    | cons v vs ih =>
      cases vs with
      | nil => simp [joined, toList_render]
      | cons w ws =>
        rw [joined_cons_cons, toList_render, ← ih]
        simp
  rw [toList_render, pieces_list]
  simp [hj]

lemma isNumeral_write (n : Int64) : Token.IsNumeral (String.ofList (Numeral.write n)) := by
  have hd : ∀ c ∈ Nat.toDigits 10 n.toInt.natAbs, c.isDigit = true := fun c hc =>
    Nat.isDigit_of_mem_toDigits (by decide) (by decide) hc
  refine ⟨_, Nat.toDigits_ne_nil, hd, ?_⟩
  rw [String.toList_ofList, Numeral.write, Numeral.writeInteger]
  split
  · exact .inr rfl
  · exact .inl rfl

lemma Readable.isExpression {v : Value} (h : v.Readable) : v.tree.IsExpression := by
  induction h with
  | number n => exact .number (isNumeral_write n)
  | symbol hs => exact .symbol hs
  | list _ ih =>
    rw [tree_list]
    exact .group (List.forall_mem_map.mpr ih)

lemma Readable.ofTree_tree {v : Value} (h : v.Readable) : ofTree v.tree = v := by
  induction h with
  | number n =>
    have hr : tree (.number n) = .number (String.ofList (Numeral.write n)) := rfl
    rw [hr, ofTree_number, ofNumeral_write]
  | symbol _ => exact ofTree_symbol _
  | @list cells hc ih =>
    have hm : (cells.map tree).map ofTree = cells := by
      rw [List.map_map]
      exact (List.map_congr_left ih).trans (List.map_id' cells)
    rw [tree_list, ofTree_group (List.forall_mem_map.mpr fun v hv => (hc v hv).isExpression), hm]

def Spelled (v : Value) : Prop :=
  ∀ rest ts, EndsNumber rest → Spells rest ts →
    Spells (v.render.toList ++ rest) (v.tree.yield ++ ts)

lemma spells_joined {cells : List Value} (h : ∀ v ∈ cells, v.Spelled) {rest : List Char}
    {ts : List Token} (hr : EndsNumber rest) (hs : Spells rest ts) :
    Spells (joined cells ++ rest) ((cells.map tree).flatMap Tree.yield ++ ts) := by
  induction cells with
  | nil => exact hs
  | cons v vs ih =>
    obtain ⟨hv, hvs⟩ := List.forall_mem_cons.mp h
    cases vs with
    | nil => simpa [joined] using hv rest ts hr hs
    | cons w ws =>
      have hb : Spells (' ' :: (joined (w :: ws) ++ rest)) _ := (ih hvs).blank rfl
      rw [joined_cons_cons, List.map_cons, List.flatMap_cons, List.append_assoc, List.append_assoc]
      -- The blank ends a number, so that `v` is cut off before its next sibling.
      have he : EndsNumber (' ' :: (joined (w :: ws) ++ rest)) := rfl
      exact hv _ _ he hb

lemma Readable.spelled {v : Value} (h : v.Readable) : v.Spelled := by
  induction h with
  | number n =>
    intro rest ts hr hs
    rw [toList_render_number]
    exact hs.number (isNumeral_write n) hr
  | @symbol s hop =>
    intro rest ts hr hs
    rw [toList_render_symbol]
    exact hs.symbol hop hr
  | @list cells _ ih =>
    intro rest ts hr hs
    have he : EndsNumber (')' :: rest) := rfl
    have hj := spells_joined ih he hs.closing
    rw [toList_render_list, tree_list, Tree.yield_group]
    simpa using hj.opening

end SexprCalc.Value
