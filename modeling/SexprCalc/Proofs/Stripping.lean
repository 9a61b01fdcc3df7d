import Mathlib.Data.List.Forall2
import SexprCalc.Proofs.Translation

namespace SexprCalc

namespace Tree

def Dropped (t : Tree) : Prop :=
  t.contents = "(" ∨ t.contents = ")" ∨ t.tag = "regex"

instance (t : Tree) : Decidable t.Dropped :=
  inferInstanceAs (Decidable (_ ∨ _))

def kept (ts : List Tree) : List Tree :=
  ts.filter fun t => ¬t.Dropped

/-- The tree with no dropped node below its root. -/
def strip : Tree → Tree :=
  fold fun tag contents parts => ⟨tag, contents, kept parts⟩

def HasMarker (t : Tree) : Prop :=
  t.Mentions "number" ∨ t.Mentions "symbol"

instance (t : Tree) : Decidable t.HasMarker :=
  inferInstanceAs (Decidable (_ ∨ _))

structure SameMarkers (t u : Tree) : Prop where
  number : t.Mentions "number" ↔ u.Mentions "number"
  symbol : t.Mentions "symbol" ↔ u.Mentions "symbol"

inductive Matched : Tree → Tree → Prop
  | leaf {t u} : SameMarkers t u → t.HasMarker → t.contents = u.contents → Matched t u
  | branch {t u} : SameMarkers t u → ¬t.HasMarker → List.Forall₂ Matched t.children u.children →
      Matched t u

lemma strip_node (tag contents : String) (children : List Tree) :
    strip ⟨tag, contents, children⟩ = ⟨tag, contents, kept (children.map strip)⟩ :=
  fold_node _ tag contents children

lemma tag_strip (t : Tree) : t.strip.tag = t.tag := by
  rcases t with ⟨tag, contents, children⟩
  rw [strip_node]

lemma contents_strip (t : Tree) : t.strip.contents = t.contents := by
  rcases t with ⟨tag, contents, children⟩
  rw [strip_node]

lemma dropped_strip (t : Tree) : t.strip.Dropped ↔ t.Dropped := by
  rw [Dropped, Dropped, tag_strip, contents_strip]

lemma kept_map_strip (ts : List Tree) : kept (ts.map strip) = (kept ts).map strip := by
  simp only [kept, List.filter_map, Function.comp_def, dropped_strip]

lemma kept_kept (ts : List Tree) : kept (kept ts) = kept ts := by
  simp [kept]

lemma children_strip (t : Tree) : t.strip.children = (kept t.children).map strip := by
  rcases t with ⟨tag, contents, children⟩
  rw [strip_node, kept_map_strip]

lemma kept_children_strip (t : Tree) : kept t.strip.children = t.strip.children := by
  rw [children_strip, ← kept_map_strip, kept_kept]

lemma sameMarkers_strip (t : Tree) : SameMarkers t.strip t := by
  constructor <;> rw [Mentions, Mentions, tag_strip]

lemma SameMarkers.hasMarker_iff {t u : Tree} (h : SameMarkers t u) :
    t.HasMarker ↔ u.HasMarker :=
  or_congr h.number h.symbol

lemma filter_isPunctuation (ts : List Tree) : (ts.filter fun t => !t.isPunctuation) = kept ts := by
  have hd (t : Tree) : (!t.isPunctuation) = decide (¬t.Dropped) := by
    simp [isPunctuation, Dropped, Tag.anchor, beq_eq_decide, Bool.and_assoc]
  simp only [kept, hd]

end Tree

namespace Value

open SexprCalc.Tree

lemma ofTree_of_not_hasMarker {t : Tree} (h : ¬t.HasMarker) :
    ofTree t = list ((kept t.children).map ofTree) := by
  obtain ⟨hn, hs⟩ := not_or.mp h
  rw [ofTree_of_list hn hs, filter_isPunctuation]

lemma ofTree_eq_of_hasMarker {t u : Tree} (hm : SameMarkers t u) (h : t.HasMarker)
    (hc : t.contents = u.contents) : ofTree t = ofTree u := by
  by_cases hn : t.Mentions "number"
  · rw [ofTree_of_number hn, ofTree_of_number (hm.number.mp hn), hc]
  · have hs : t.Mentions "symbol" := h.resolve_left hn
    rw [ofTree_of_symbol hn hs, ofTree_of_symbol (hm.number.not.mp hn) (hm.symbol.mp hs), hc]

lemma ofTree_strip (t : Tree) : ofTree t.strip = ofTree t := by
  induction t with
  | node tag contents children ih =>
    generalize ht : Tree.mk tag contents children = t
    have hm := sameMarkers_strip t
    by_cases h : t.HasMarker
    · exact ofTree_eq_of_hasMarker hm (hm.hasMarker_iff.mpr h) (contents_strip t)
    · rw [ofTree_of_not_hasMarker h, ofTree_of_not_hasMarker (hm.hasMarker_iff.not.mpr h),
        kept_children_strip, children_strip, List.map_map]
      apply congrArg
      apply List.map_congr_left
      intro u hu
      apply ih u
      subst ht
      exact List.mem_of_mem_filter hu

lemma ofTree_eq_list {t : Tree} (h : ¬t.HasMarker) :
    ofTree t = list (t.strip.children.map ofTree) := by
  have hs (u : Tree) : (ofTree ∘ strip) u = ofTree u := ofTree_strip u
  rw [ofTree_of_not_hasMarker h, children_strip, List.map_map, List.map_congr_left fun u _ => hs u]

lemma map_ofTree_congr {ts us : List Tree}
    (ih : ∀ t ∈ ts, ∀ u, Matched t.strip u.strip → ofTree t = ofTree u)
    (h : List.Forall₂ Matched (ts.map strip) (us.map strip)) : ts.map ofTree = us.map ofTree := by
  rw [List.forall₂_map_left_iff, List.forall₂_map_right_iff] at h
  rw [← List.forall₂_eq_eq_eq, List.forall₂_map_left_iff, List.forall₂_map_right_iff]
  apply List.Forall₂.imp _ ((List.forall₂_and_left ..).mpr ⟨ih, h⟩)
  rintro t u ⟨ht, hm⟩
  exact ht u hm

lemma ofTree_eq_of_matched {t u : Tree} (h : Matched t.strip u.strip) : ofTree t = ofTree u := by
  induction t generalizing u with
  | node tag contents children ih =>
    generalize ht : Tree.mk tag contents children = t at h
    have hs := sameMarkers_strip t
    have hu := sameMarkers_strip u
    cases h with
    | leaf hm hk hc =>
      rw [← ofTree_strip t, ← ofTree_strip u]
      exact ofTree_eq_of_hasMarker hm hk hc
    | branch hm hk hc =>
      rw [children_strip, children_strip] at hc
      rw [ofTree_of_not_hasMarker (hs.hasMarker_iff.not.mp hk),
        ofTree_of_not_hasMarker (hu.hasMarker_iff.not.mp (hm.hasMarker_iff.not.mp hk))]
      apply congrArg
      apply map_ofTree_congr _ hc
      intro v hv
      subst ht
      exact fun w => ih v (List.mem_of_mem_filter hv)

/-- Dropped nodes may be taken out at every depth, and nodes that match then may be put for one
another: the value stays the same. The root is never one of those that are dropped. -/
theorem ofTree_strip_matched :
    (∀ t : Tree, ofTree t.strip = ofTree t) ∧
    (∀ t u : Tree, Matched t.strip u.strip → ofTree t = ofTree u) ∧
    ∀ t : Tree, t.strip.tag = t.tag ∧ t.strip.contents = t.contents ∧
      (¬t.HasMarker → ofTree t = list (t.strip.children.map ofTree)) :=
  ⟨ofTree_strip, fun _ _ => ofTree_eq_of_matched,
    fun t => ⟨tag_strip t, contents_strip t, ofTree_eq_list⟩⟩

theorem ofTree_strip_matched_roots :
    let t : Tree := ⟨"regex", "", [.leaf "number" "(", ⟨"a number", "07", [.number "1"]⟩,
      ⟨"sexpr", "text", [.leaf "symbol" "%"]⟩]⟩
    let u : Tree := ⟨">", ")", [.leaf "number" "07", .anchor,
      ⟨"", "", [.leaf "regex" "5", .symbol "%"]⟩]⟩
    Matched t.strip u.strip ∧ ofTree t = ofTree u := by
  intro t u
  have ht : t.strip = ⟨"regex", "", [⟨"a number", "07", [.number "1"]⟩,
    ⟨"sexpr", "text", [.leaf "symbol" "%"]⟩]⟩ := by rfl
  have hu : u.strip = ⟨">", ")", [.leaf "number" "07", ⟨"", "", [.symbol "%"]⟩]⟩ := by rfl
  have sign : Matched (.leaf "symbol" "%") (.symbol "%") :=
    .leaf ⟨by decide, by decide⟩ (by decide) rfl
  have group : Matched ⟨"sexpr", "text", [.leaf "symbol" "%"]⟩ ⟨"", "", [.symbol "%"]⟩ :=
    .branch ⟨by decide, by decide⟩ (by decide) (.cons sign .nil)
  have seven : Matched ⟨"a number", "07", [.number "1"]⟩ (.leaf "number" "07") :=
    .leaf ⟨by decide, by decide⟩ (by decide) rfl
  have hm : Matched t.strip u.strip := by
    rw [ht, hu]
    exact .branch ⟨by decide, by decide⟩ (by decide) (.cons seven (.cons group .nil))
  exact ⟨hm, ofTree_strip_matched.2.1 t u hm⟩

end Value

end SexprCalc
