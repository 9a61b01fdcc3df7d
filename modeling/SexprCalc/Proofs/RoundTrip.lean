import SexprCalc.Eval.Basic
import SexprCalc.Proofs.Outcome
import SexprCalc.Proofs.Printing
import SexprCalc.Proofs.Sentences

namespace SexprCalc.Value

open Text Reading

lemma Readable.lex_render {v : Value} (h : v.Readable) :
    Token.lex v.render = .ok v.tree.yield := by
  have hs := h.spelled [] [] rfl Scan.spells_nil
  rw [List.append_nil, List.append_nil] at hs
  exact hs.lex

lemma Readable.read_render {v : Value} (h : v.Readable) (hd : v.depth ≤ maxNestingDepth) :
    Tree.read v.render = .ok (.root [v.tree]) := by
  refine Tree.read_eq_ok_iff_lex.mpr ⟨.root (List.forall_mem_singleton.mpr h.isExpression), ?_, ?_⟩
  · exact Tree.nesting_root_le_iff.mpr (List.forall_mem_singleton.mpr (nesting_tree_le_iff.mpr hd))
  · rw [h.lex_render, Tree.yield_root, List.flatMap_singleton]

lemma Readable.ofTree_root {v : Value} (h : v.Readable) :
    ofTree (.root [v.tree]) = .list [v] := by
  rw [Value.ofTree_root (List.forall_mem_singleton.mpr h.isExpression), List.map_singleton,
    h.ofTree_tree]

lemma Readable.contains_render {v : Value} (h : v.Readable) :
    ∀ c ∈ v.render.toList, Alphabet.contains c = true :=
  Scan.contains_of_stop_eq_none (Token.lex_eq_ok_iff.mp h.lex_render).1

lemma balanced_joined {cells : List Value} (h : ∀ v ∈ cells, Brackets.Balanced v.render.toList) :
    Brackets.Balanced (joined cells) := by
  induction cells with
  | nil => exact Brackets.balanced_nil
  | cons v vs ih =>
    obtain ⟨hv, hvs⟩ := List.forall_mem_cons.mp h
    cases vs with
    | nil => simpa [joined] using hv
    | cons w ws =>
      have hb : Brackets.Balanced [' '] := Brackets.balanced_other (by simp)
      rw [joined_cons_cons]
      exact hv.append (hb.append (ih hvs))

lemma Readable.balanced {v : Value} (h : v.Readable) : Brackets.Balanced v.render.toList := by
  induction h with
  | number n =>
    rw [toList_render_number]
    exact Brackets.balanced_other fun c hc => ((isNumeral_write n).plain c hc).2
  | symbol hs =>
    rw [toList_render_symbol]
    exact Brackets.balanced_other fun c hc => (hs.plain c hc).2
  | list _ ih =>
    rw [toList_render_list]
    exact (balanced_joined ih).group

lemma joined_split {cells : List Value} (h : ∀ v ∈ cells, Brackets.Balanced v.render.toList)
    {v : Value} (hv : v ∈ cells) :
    ∃ before after, joined cells = before ++ v.render.toList ++ after ∧
      Brackets.depth before = 0 := by
  induction cells with
  | nil => cases hv
  | cons u us ih =>
    obtain ⟨hu, hus⟩ := List.forall_mem_cons.mp h
    cases us with
    | nil =>
      obtain rfl := List.mem_singleton.mp hv
      exact ⟨[], [], by simp [joined], rfl⟩
    | cons w ws =>
      rw [joined_cons_cons]
      rcases List.mem_cons.mp hv with rfl | hv
      · exact ⟨[], ' ' :: joined (w :: ws), rfl, rfl⟩
      · obtain ⟨before, after, hj, hd⟩ := ih hus hv
        refine ⟨u.render.toList ++ ' ' :: before, after, by simp [hj], ?_⟩
        rw [Brackets.depth_append, Brackets.depth_cons_other (by decide), hu.2, hd]
        rfl

lemma Readable.exists_opening {v : Value} (h : v.Readable) {n : Nat} (hn : n < v.depth) :
    ∃ before after, v.render.toList = before ++ '(' :: after ∧ Brackets.depth before = n := by
  induction h generalizing n with
  | number m => cases hn
  | symbol hs => cases hn
  | @list cells hc ih =>
    rw [toList_render_list]
    cases n with
    | zero => exact ⟨[], joined cells ++ [')'], rfl, rfl⟩
    | succ n =>
      have hdeep : ¬∀ v ∈ cells, v.depth ≤ n := fun hle =>
        Nat.not_le_of_lt hn (depth_list_le_iff.mpr hle)
      -- A cell deep enough exists, and nothing is open before it but this list.
      obtain ⟨v, hv, hlt⟩ : ∃ v ∈ cells, n < v.depth := by simpa using hdeep
      obtain ⟨b, a, ht, hb⟩ := ih v hv hlt
      obtain ⟨before, after, hj, hd⟩ := joined_split (fun w hw => (hc w hw).balanced) hv
      refine ⟨'(' :: before ++ b, a ++ after ++ [')'], by simp [hj, ht], ?_⟩
      rw [Brackets.depth_append, Brackets.depth_opening, hd, hb]
      omega

lemma Readable.not_faultless {v : Value} (h : v.Readable) (hd : maxNestingDepth < v.depth) :
    ¬Faultless v.render.toList := by
  intro hf
  obtain ⟨before, after, hs, hb⟩ := h.exists_opening hd
  rw [hs] at hf
  exact Int.ne_of_lt hf.depth_lt hb

lemma Readable.read_render_tooDeep {v : Value} (h : v.Readable) (hd : maxNestingDepth < v.depth) :
    ∃ before after, v.render.toList = before ++ '(' :: after ∧
      Brackets.depth before = maxNestingDepth ∧
      (∀ p q, before = p ++ '(' :: q → Brackets.depth p < maxNestingDepth) ∧
      Tree.read v.render = .error (.tooDeep (Utf8.size before)) :=
  exists_read_eq_tooDeep h.contains_render h.balanced (h.not_faultless hd)

/-- The text of a readable value reads back as that value, alone in the root, and evaluates as it
does. One level too many, and reading stops at the first group that is opened inside as many as
there may be. -/
theorem round_trip {v : Value} (h : v.Readable) :
    (v.depth ≤ maxNestingDepth →
      (∃ t, Tree.read v.render = .ok t ∧ ofTree t = .list [v]) ∧
      evaluate v.render = .ok v.eval) ∧
    (maxNestingDepth < v.depth → ∃ before after, v.render.toList = before ++ '(' :: after ∧
      Brackets.depth before = maxNestingDepth ∧
      (∀ p q, before = p ++ '(' :: q → Brackets.depth p < maxNestingDepth) ∧
      Tree.read v.render = .error (.tooDeep (Utf8.size before))) := by
  refine ⟨fun hd => ⟨⟨_, h.read_render hd, h.ofTree_root⟩, ?_⟩, h.read_render_tooDeep⟩
  rw [evaluate, h.read_render hd, Except.map, h.ofTree_root, eval_list_singleton]

def wrapped (v : Value) : Nat → Value
  | 0 => v
  | n + 1 => .list [wrapped v n]

lemma Readable.wrapped {v : Value} (h : v.Readable) (n : Nat) : (v.wrapped n).Readable := by
  induction n with
  | zero => exact h
  | succ n ih => exact .list (List.forall_mem_singleton.mpr ih)

lemma depth_wrapped (v : Value) (n : Nat) : (v.wrapped n).depth = n + v.depth := by
  induction n with
  | zero => exact (Nat.zero_add _).symm
  | succ n ih =>
    rw [wrapped, depth_list, List.map_singleton, ih]
    simp
    omega

theorem round_trip_minus :
    let v := list [symbol "-", number (-5), list [symbol "-", number Int64.minValue], list []]
    (∃ t, Tree.read v.render = .ok t ∧ ofTree t = .list [v]) ∧ evaluate v.render = .ok v.eval ∧
    ∃ before after, (v.wrapped 255).render.toList = before ++ '(' :: after ∧
      Brackets.depth before = maxNestingDepth ∧
      (∀ p q, before = p ++ '(' :: q → Brackets.depth p < maxNestingDepth) ∧
      Tree.read (v.wrapped 255).render = .error (.tooDeep (Utf8.size before)) := by
  intro v
  have minus : Readable (symbol "-") := .symbol (.inr (.inl rfl))
  have empty : Readable (list []) := .list (by simp)
  have inner : Readable (list [symbol "-", number Int64.minValue]) :=
    .list (by simp [minus, Readable.number])
  have hv : v.Readable := .list (by simp [minus, empty, inner, Readable.number])
  have hd : v.depth = 2 := by decide
  have shallow := (round_trip hv).1 (by rw [hd]; decide)
  have deep := (round_trip (hv.wrapped 255)).2 (by rw [depth_wrapped, hd]; decide)
  exact ⟨shallow.1, shallow.2, deep⟩

end SexprCalc.Value
