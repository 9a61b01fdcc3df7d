import SexprCalc.Proofs.Results
import SexprCalc.Proofs.RoundTrip

namespace SexprCalc

open Text Brackets

lemma Token.WellFormed.depth_text {t : Token} (h : t.WellFormed) :
    Brackets.depth t.text.toList = Token.depth [t] := by
  cases t with
  | opening => rfl
  | closing => rfl
  | number s => exact depth_other fun c hc => (IsNumeral.plain h c hc).2
  | symbol s => exact depth_other fun c hc => (IsOperator.plain h c hc).2

lemma Scan.exists_prefix_depth {offset : Nat} {cs : List Char} {ts : List Token}
    (h : ts <+: (run [] offset cs).tokens.map Located.item) :
    ∃ p, p <+: cs ∧ Brackets.depth p = Token.depth ts := by
  induction cs using Scan.induction generalizing offset ts with
  | nil =>
    obtain rfl : ts = [] := by simpa [run] using h
    exact ⟨[], List.nil_prefix, rfl⟩
  | blank c rest hb ih =>
    rw [run_blank hb] at h
    obtain ⟨p, hp, hd⟩ := ih h
    refine ⟨c :: p, List.cons_prefix_cons.mpr ⟨rfl, hp⟩, ?_⟩
    rw [depth_cons_other (Alphabet.plain_of_isBlank hb).2, hd]
  | stop c rest hb hn =>
    obtain rfl : ts = [] := by simpa [run_stop hb hn] using h
    exact ⟨[], List.nil_prefix, rfl⟩
  | token c rest t after hb ht ih =>
    rw [run_first hb ht, List.map_cons] at h
    rcases List.prefix_cons_iff.mp h with rfl | ⟨us, rfl, hu⟩
    · exact ⟨[], List.nil_prefix, rfl⟩
    · obtain ⟨p, hp, hd⟩ := ih hu
      refine ⟨t.text.toList ++ p, ?_, ?_⟩
      · rw [← first?_append ht]
        exact (List.prefix_append_right_inj _).mpr hp
      · rw [Brackets.depth_append, (first?_wellFormed ht).depth_text, hd, ← Token.depth_cons]

namespace Tree

lemma depth_flatMap_yield {ts : List Tree} (h : ∀ t ∈ ts, Token.depth t.yield = 0) :
    Token.depth (ts.flatMap yield) = 0 := by
  induction ts with
  | nil => rfl
  | cons t ts ih =>
    obtain ⟨ht, hts⟩ := List.forall_mem_cons.mp h
    rw [List.flatMap_cons, Token.depth_append, ht, ih hts, Int.add_zero]

lemma depth_yield_group (ts : List Tree) :
    Token.depth (group ts).yield = Token.depth (ts.flatMap yield) := by
  have ho : Token.depth [.opening] = 1 := rfl
  have hc : Token.depth [.closing] = -1 := rfl
  rw [yield_group, List.cons_append, Token.depth_cons, Token.depth_append, ho, hc]
  omega

lemma IsExpression.depth_yield {t : Tree} (h : t.IsExpression) : Token.depth t.yield = 0 := by
  induction h with
  | number _ => rfl
  | symbol _ => rfl
  | @group ts _ ih => exact (depth_yield_group ts).trans (depth_flatMap_yield ih)

lemma exists_prefix_flatMap_yield {ts : List Tree} (h : ∀ t ∈ ts, t.IsExpression) {t : Tree}
    (ht : t ∈ ts) {p : List Token} (hp : p <+: t.yield) :
    ∃ q, q <+: ts.flatMap yield ∧ Token.depth q = Token.depth p := by
  obtain ⟨before, after, rfl⟩ := List.append_of_mem ht
  obtain ⟨r, hr⟩ := hp
  have hb : Token.depth (before.flatMap yield) = 0 :=
    depth_flatMap_yield fun u hu => (h u (by simp [hu])).depth_yield
  refine ⟨before.flatMap yield ++ p, ⟨r ++ after.flatMap yield, ?_⟩, ?_⟩
  · simp [← hr]
  · rw [Token.depth_append, hb, Int.zero_add]

lemma IsExpression.nesting_le {t : Tree} (h : t.IsExpression) {n : Nat}
    (hn : ∀ p, p <+: t.yield → Token.depth p ≤ n) : t.nesting ≤ n := by
  induction h generalizing n with
  | number _ => exact Nat.zero_le n
  | symbol _ => exact Nat.zero_le n
  | @group ts hts ih =>
    change ∀ p, p <+: (Tree.group ts).yield → _ at hn
    change (Tree.group ts).nesting ≤ n
    rw [yield_group, List.cons_append] at hn
    have ho : Token.depth [.opening] = 1 := rfl
    have h1 := hn [.opening] (by simp)
    obtain ⟨m, rfl⟩ : ∃ m, n = m + 1 := Nat.exists_eq_succ_of_ne_zero (by omega)
    refine nesting_group_le_iff.mpr fun t ht => ih t ht fun p hp => ?_
    obtain ⟨q, hq, hd⟩ := exists_prefix_flatMap_yield hts ht hp
    -- What the cells open is opened inside of one group more.
    have hpre : Token.opening :: q <+: .opening :: (ts.flatMap yield ++ [.closing]) :=
      List.cons_prefix_cons.mpr ⟨rfl, hq.trans (List.prefix_append ..)⟩
    have hle := hn _ hpre
    rw [Token.depth_cons] at hle
    omega

lemma nesting_le_of_nestsWithin {text : String} {ts : List Tree} {n : Nat}
    (hts : ∀ t ∈ ts, t.IsExpression) (hl : Token.lex text = .ok (ts.flatMap yield))
    (hn : NestsWithin n text.toList) : ∀ t ∈ ts, t.nesting ≤ n := by
  intro t ht
  apply (hts t ht).nesting_le
  intro p hp
  obtain ⟨q, hq, hd⟩ := exists_prefix_flatMap_yield hts ht hp
  rw [← (Token.lex_eq_ok_iff.mp hl).2] at hq
  obtain ⟨cs, hcs, he⟩ := Scan.exists_prefix_depth hq
  rw [← hd, ← he]
  exact hn cs hcs

end Tree

def enclose (text : String) : String :=
  "(" ++ text ++ ")"

lemma toList_enclose (text : String) :
    (enclose text).toList = '(' :: text.toList ++ [')'] := by
  simp [enclose]

lemma Token.lex_enclose {text : String} {ts : List Token} (h : lex text = .ok ts) :
    lex (enclose text) = .ok (.opening :: ts ++ [.closing]) := by
  have he : Scan.EndsNumber [')'] := rfl
  apply Scan.Spells.lex
  rw [toList_enclose]
  exact ((Scan.spells_of_lex h).append he Scan.spells_nil.closing).opening

namespace Reading

lemma read_enclose {text : String} {ts : List Tree} (hts : ∀ t ∈ ts, t.IsExpression)
    (hl : Token.lex text = .ok (ts.flatMap Tree.yield))
    (hn : NestsWithin (maxNestingDepth - 1) text.toList) :
    Tree.read (enclose text) = .ok (.root [.group ts]) := by
  have hle := Tree.nesting_le_of_nestsWithin hts hl hn
  refine Tree.read_eq_ok_iff_lex.mpr ⟨.root (List.forall_mem_singleton.mpr (.group hts)), ?_, ?_⟩
  · apply Tree.nesting_root_le_iff.mpr
    exact List.forall_mem_singleton.mpr (Tree.nesting_group_le_iff.mpr hle)
  · rw [Token.lex_enclose hl, Tree.yield_root, List.flatMap_singleton, Tree.yield_group]

lemma evaluate_enclose {text : String} {t : Tree} (h : Tree.read text = .ok t)
    (hn : NestsWithin (maxNestingDepth - 1) text.toList) :
    evaluate (enclose text) = evaluate text := by
  obtain ⟨ts, hts, rfl, hl⟩ := Tree.exists_expressions_of_read h
  have hg : ∀ u ∈ [Tree.group ts], u.IsExpression := List.forall_mem_singleton.mpr (.group hts)
  -- The root of a text evaluates as the list in a group does.
  have hv : (Value.ofTree (.root [.group ts])).eval = (Value.ofTree (.root ts)).eval := by
    rw [Value.ofTree_root hg, List.map_singleton, Value.ofTree_group hts,
      Value.eval_list_singleton, Value.ofTree_root hts]
  rw [evaluate, evaluate, read_enclose hts hl hn, h]
  exact congrArg Except.ok hv

lemma nestsWithin_of_faultless_enclose {cs : List Char}
    (h : Faultless ('(' :: cs ++ [')'])) : NestsWithin (maxNestingDepth - 1) cs := by
  rintro p ⟨q, rfl⟩
  have hp : Faultless ('(' :: p ++ (q ++ [')'])) := by simpa using h
  have hb := hp.of_append.depth_bounds.2
  have hm : maxNestingDepth = maxNestingDepth - 1 + 1 := rfl
  rw [depth_opening] at hb
  omega

lemma exists_evaluate_enclose_eq_tooDeep {text : String} {t : Tree} (h : Tree.read text = .ok t)
    (hn : ¬NestsWithin (maxNestingDepth - 1) text.toList) :
    ∃ before after, (enclose text).toList = before ++ '(' :: after ∧
      depth before = maxNestingDepth ∧
      (∀ p q, before = p ++ '(' :: q → depth p < maxNestingDepth) ∧
      evaluate (enclose text) = .error (.tooDeep (Utf8.size before)) := by
  have hc := (exists_read_eq_ok_iff.mp ⟨t, h⟩).1.contains
  have hb := (balanced_of_read h).group
  have ha : ∀ c ∈ '(' :: text.toList ++ [')'], Alphabet.contains c = true :=
    List.forall_mem_append.mpr
      ⟨List.forall_mem_cons.mpr ⟨rfl, hc⟩, List.forall_mem_singleton.mpr rfl⟩
  rw [← toList_enclose] at ha hb
  obtain ⟨before, after, hs, hd, hf, hr⟩ := exists_read_eq_tooDeep ha hb fun hl =>
    hn (nestsWithin_of_faultless_enclose (toList_enclose text ▸ hl))
  exact ⟨before, after, hs, hd, hf, by rw [evaluate, hr]; rfl⟩

/-- A part of a value in parentheses of its own evaluates as before, and so does a whole text in
parentheses. If as many groups as there may be are open in the text already, reading stops at the
first group that is opened inside that many. -/
theorem eval_enclosed :
    (∀ (c : Context) (u : Value), (c.fill (.list [u])).eval = (c.fill u).eval) ∧
    ∀ text, (∃ t, Tree.read text = .ok t) →
      NestsWithin maxNestingDepth text.toList ∧
      (NestsWithin (maxNestingDepth - 1) text.toList →
        evaluate (enclose text) = evaluate text) ∧
      (¬NestsWithin (maxNestingDepth - 1) text.toList →
        ∃ before after, (enclose text).toList = before ++ '(' :: after ∧
          depth before = maxNestingDepth ∧
          (∀ p q, before = p ++ '(' :: q → depth p < maxNestingDepth) ∧
          evaluate (enclose text) = .error (.tooDeep (Utf8.size before))) := by
  refine ⟨fun c u => Value.eval_fill_congr c (Value.eval_list_singleton u), ?_⟩
  rintro text ⟨t, h⟩
  have hf := (exists_read_eq_ok_iff.mp ⟨t, h⟩).1
  exact ⟨hf.nestsWithin, evaluate_enclose h, exists_evaluate_enclose_eq_tooDeep h⟩

theorem eval_enclosed_deepest :
    let text := (Value.wrapped (.list []) 255).render
    (∃ t, Tree.read text = .ok t) ∧ ¬NestsWithin (maxNestingDepth - 1) text.toList ∧
      ∃ before after, (enclose text).toList = before ++ '(' :: after ∧
        depth before = maxNestingDepth ∧
        (∀ p q, before = p ++ '(' :: q → depth p < maxNestingDepth) ∧
        evaluate (enclose text) = .error (.tooDeep (Utf8.size before)) := by
  intro text
  have empty : Value.Readable (.list []) := .list (by simp)
  have hv := empty.wrapped 255
  have hd : (Value.wrapped (.list []) 255).depth = 256 := Value.depth_wrapped _ _
  have hr : ∃ t, Tree.read text = .ok t := ⟨_, hv.read_render (Nat.le_of_eq hd)⟩
  have hn : ¬NestsWithin (maxNestingDepth - 1) text.toList := by
    obtain ⟨before, after, hs, hb⟩ := hv.exists_opening (n := 255) (hd ▸ Nat.lt_succ_self 255)
    intro h
    have hp := h (before ++ ['(']) ⟨after, by simp [text, hs]⟩
    have hm : maxNestingDepth = 256 := rfl
    rw [depth_append, depth_opening, depth_nil] at hp
    omega
  exact ⟨hr, hn, (eval_enclosed.2 text hr).2.2 hn⟩

example : (evaluate (enclose "+ 1 2")).toOption = some (.number 3) ∧
    (evaluate (enclose " ")).toOption = some (.list []) := by
  decide +kernel

end Reading

end SexprCalc
