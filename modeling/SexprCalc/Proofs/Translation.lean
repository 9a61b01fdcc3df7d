import SexprCalc.Proofs.Grammar
import SexprCalc.Value.OfTree

namespace SexprCalc

open SexprCalc.Tree

lemma Tree.IsExpression.isPunctuation {t : Tree} (h : t.IsExpression) :
    t.isPunctuation = false := by
  have plain {s : String} (hs : ∀ c ∈ s.toList, Text.Alphabet.Plain c) : s ≠ "(" ∧ s ≠ ")" := by
    constructor <;> rintro rfl
    · exact (hs '(' (by simp)).2.1 rfl
    · exact (hs ')' (by simp)).2.2 rfl
  cases h with
  | number hs =>
    have ht : Tag.number ≠ Tag.anchor := by decide
    simp [Tree.isPunctuation, plain hs.plain, ht]
  | symbol hs =>
    have ht : Tag.symbol ≠ Tag.anchor := by decide
    simp [Tree.isPunctuation, plain hs.plain, ht]
  | group _ => rfl

def Tree.Mentions (t : Tree) (marker : String) : Prop :=
  marker.toList <:+: t.tag.toList

lemma Tree.marked_iff {t : Tree} {marker : String} : t.marked marker = true ↔ t.Mentions marker :=
  Text.occursIn_iff ..

instance (t : Tree) (marker : String) : Decidable (t.Mentions marker) :=
  decidable_of_iff (t.marked marker = true) Tree.marked_iff

namespace Value

lemma ofNumeral_write (n : Int64) :
    ofNumeral (String.ofList (Text.Numeral.write n)) = number n := by
  rw [ofNumeral, String.toList_ofList, Text.Numeral.read?_write]

lemma ofTree_of_number {t : Tree} (h : t.Mentions "number") :
    ofTree t = ofNumeral t.contents := by
  rw [ofTree_eq, if_pos (marked_iff.mpr h)]

lemma ofTree_of_symbol {t : Tree} (hn : ¬t.Mentions "number") (hs : t.Mentions "symbol") :
    ofTree t = .symbol t.contents := by
  rw [ofTree_eq, if_neg (mt marked_iff.mp hn), if_pos (marked_iff.mpr hs)]

lemma ofTree_of_list {t : Tree} (hn : ¬t.Mentions "number") (hs : ¬t.Mentions "symbol") :
    ofTree t = .list ((t.children.filter fun c => !c.isPunctuation).map ofTree) := by
  rw [ofTree_eq, if_neg (mt marked_iff.mp hn), if_neg (mt marked_iff.mp hs)]

lemma ofTree_number (s : String) : ofTree (.number s) = ofNumeral s := by
  have hn : (Tree.number s).marked "number" = true :=
    (by decide : Text.occursIn "number".toList Tag.number.toList = true)
  rw [ofTree_eq, if_pos hn]
  rfl

lemma ofTree_symbol (s : String) : ofTree (.symbol s) = .symbol s := by
  have hn : (Tree.symbol s).marked "number" = false :=
    (by decide : Text.occursIn "number".toList Tag.symbol.toList = false)
  have hs : (Tree.symbol s).marked "symbol" = true :=
    (by decide : Text.occursIn "symbol".toList Tag.symbol.toList = true)
  rw [ofTree_eq, hn, if_neg Bool.false_ne_true, if_pos hs]
  rfl

lemma ofTree_between {tag : String} {first last : Tree} {ts : List Tree}
    (hn : Text.occursIn "number".toList tag.toList = false)
    (hs : Text.occursIn "symbol".toList tag.toList = false) (hf : first.isPunctuation = true)
    (hl : last.isPunctuation = true) (h : ∀ t ∈ ts, t.IsExpression) :
    ofTree (branch tag (first :: ts ++ [last])) = .list (ts.map ofTree) := by
  have hn' : (branch tag (first :: ts ++ [last])).marked "number" = false := hn
  have hs' : (branch tag (first :: ts ++ [last])).marked "symbol" = false := hs
  have hts : ts.filter (fun t => !t.isPunctuation) = ts :=
    List.filter_eq_self.mpr fun t ht => by simp [(h t ht).isPunctuation]
  rw [ofTree_eq, hn', hs', if_neg Bool.false_ne_true, if_neg Bool.false_ne_true]
  simp [branch, hf, hl, hts]

lemma ofTree_group {ts : List Tree} (h : ∀ t ∈ ts, t.IsExpression) :
    ofTree (.group ts) = .list (ts.map ofTree) :=
  ofTree_between (by decide) (by decide) rfl rfl h

lemma ofTree_root {ts : List Tree} (h : ∀ t ∈ ts, t.IsExpression) :
    ofTree (.root ts) = .list (ts.map ofTree) :=
  ofTree_between (by decide) (by decide) rfl rfl h

end Value

end SexprCalc
