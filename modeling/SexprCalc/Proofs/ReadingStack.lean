import SexprCalc.Proofs.OpenStack
import SexprCalc.Proofs.Printing
import SexprCalc.Proofs.Pulls
import SexprCalc.Proofs.Sentences

namespace SexprCalc

open Text Brackets

namespace Descent

open Watched

variable {cs : List Char} {calls : Nat} {parens : List Nat} {expressions : List Tree}
  {rest after origin : Located (List Char)} {t : Located Token}

def takeUp (d : Draft) (c : Closed origin) : Except ReadError Tree :=
  (d.add c.tree).resume c.rest.offset c.rest.item

lemma unbalanced_concat (parens : List Nat) (start : Nat) :
    unbalanced (parens ++ [start]) = .unbalanced start := by
  simp [unbalanced]

lemma resume_group {start : Nat} {d : Draft} (h : rest.item.length < origin.item.length)
    (hl : parens.length = calls) (hd : parens = d.starts.reverse)
    (hi : calls < maxNestingDepth →
      Draft.resume ⟨⟨start, []⟩ :: d.groups, d.expressions⟩ rest.offset rest.item =
        (inside (calls + 1) (parens ++ [start]) [] rest h).result.bind (takeUp d)) :
    ((d.step ⟨start, .opening⟩).bind fun d => d.resume rest.offset rest.item) =
      (group (calls + 1) start parens rest h).result.bind (takeUp d) := by
  have hg : parens.length = d.groups.length := by simp [hd, Draft.starts]
  rw [group, result_note, Draft.step]
  by_cases hm : maxNestingDepth ≤ parens.length
  · rw [if_pos hm, if_neg (by omega)]
    rfl
  · rw [if_neg hm, if_pos (by omega), result_bind_bind]
    exact hi (hl ▸ Nat.lt_of_not_le hm)

lemma resume_inside {start : Nat} {groups : List OpenGroup} {done : List Tree}
    (h : rest.item.length < origin.item.length)
    (hs : Stands cs (calls + 1) (parens ++ [start]) rest)
    (hd : parens = (Draft.mk groups done).starts.reverse) :
    Draft.resume ⟨⟨start, expressions⟩ :: groups, done⟩ rest.offset rest.item =
      (inside (calls + 1) (parens ++ [start]) expressions rest h).result.bind
        (takeUp ⟨groups, done⟩) := by
  -- The innermost call is the innermost group of the draft, and the calls around it are the others.
  induction hl : rest.item.length using Nat.strongRecOn
    generalizing calls parens start expressions rest origin groups done with
  | ind m ih =>
    subst hl
    rw [inside, result_note]
    split
    · next hp =>
      rw [Draft.resume_ended _ hp, result_note, unbalanced_concat]
      rfl
    · next e hp =>
      rw [Draft.resume_refused _ hp]
      rfl
    · next t after hp =>
      have ha := Pull.next_lt hp
      rw [Draft.resume_next _ hp]
      obtain ⟨offset, t⟩ := t
      cases t with
      | opening =>
        have hd' : parens ++ [start] =
            (Draft.mk (⟨start, expressions⟩ :: groups) done).starts.reverse := by
          simp [hd, Draft.starts]
        have hg := restores_opening ha hs hp rfl
        refine (resume_group ha hs.length_eq hd' fun hlt => ?_).trans ?_
        · exact ih _ ha _ (hs.opening hp rfl hlt) hd' rfl
        · simp only [result_bind_bind]
          apply hg.bind_congr
          rintro ⟨tree, _, rest', hlt⟩ ⟨rfl, hs'⟩
          exact ih _ hlt _ hs' hd rfl
      | closing => rfl
      | number s => exact ih _ ha _ (hs.leaf hp rfl) hd rfl
      | symbol s => exact ih _ ha _ (hs.leaf hp rfl) hd rfl

lemma resume_opening {d : Draft} (h : after.item.length < origin.item.length)
    (hs : Stands cs calls parens rest)
    (hp : Pull.next rest.offset rest.item = .token t after) (ht : t.item = .opening)
    (hd : parens = d.starts.reverse) :
    ((d.step t).bind fun d => d.resume after.offset after.item) =
      (group (calls + 1) t.offset parens after h).result.bind (takeUp d) := by
  obtain ⟨offset, _⟩ := t
  obtain rfl := ht
  exact resume_group h hs.length_eq hd fun hlt => resume_inside h (hs.opening hp rfl hlt) hd

lemma resume_outside (hs : Stands cs 0 [] rest) :
    Draft.resume ⟨[], expressions⟩ rest.offset rest.item =
      (outside [] expressions rest).result := by
  induction hl : rest.item.length using Nat.strongRecOn generalizing expressions rest with
  | ind m ih =>
    subst hl
    rw [outside, result_note]
    split
    · next hp =>
      rw [Draft.resume_ended _ hp]
      rfl
    · next e hp =>
      rw [Draft.resume_refused _ hp]
      rfl
    · next t after hp =>
      have ha := Pull.next_lt hp
      rw [Draft.resume_next _ hp]
      obtain ⟨offset, t⟩ := t
      cases t with
      | opening =>
        have hg := restores_opening ha hs hp rfl
        refine (resume_opening ha hs hp rfl rfl).trans ?_
        simp only [result_bind]
        apply hg.bind_congr
        rintro ⟨tree, _, rest', hlt⟩ ⟨rfl, hs'⟩
        exact ih _ hlt hs' rfl
      | closing => rfl
      | number s => exact ih _ ha (hs.leaf hp rfl) rfl
      | symbol s => exact ih _ ha (hs.leaf hp rfl) rfl

end Descent

namespace Value

lemma depth_ofTree_le {t : Tree} (h : t.IsExpression) : (ofTree t).depth ≤ t.nesting := by
  induction h with
  | @number s _ =>
    change (ofTree (.number s)).depth ≤ _
    rw [ofTree_number, ofNumeral]
    split <;> exact Nat.zero_le _
  | @symbol s _ =>
    change (ofTree (.symbol s)).depth ≤ _
    rw [ofTree_symbol]
    exact Nat.zero_le _
  | @group ts hts ih =>
    change (ofTree (.group ts)).depth ≤ (Tree.group ts).nesting
    obtain ⟨n, hn⟩ := Nat.exists_eq_succ_of_ne_zero (Nat.ne_of_gt (Tree.nesting_group_pos ts))
    have hle := Tree.nesting_group_le_iff.mp (Nat.le_of_eq hn)
    rw [ofTree_group hts, hn]
    apply depth_list_le_iff.mpr
    exact List.forall_mem_map.mpr fun t ht => (ih t ht).trans (hle t ht)

lemma depth_ofTree_read_le {text : String} {t : Tree} (h : Tree.read text = .ok t) :
    (ofTree t).depth ≤ maxNestingDepth + 1 := by
  have hn := Tree.nesting_le_of_read h
  obtain ⟨ts, hts, rfl, -⟩ := Tree.exists_expressions_of_read h
  have hle := Tree.nesting_root_le_iff.mp hn
  rw [ofTree_root hts, depth_list_le_iff]
  exact List.forall_mem_map.mpr fun t ht => (depth_ofTree_le (hts t ht)).trans (hle t ht)

end Value

namespace Descent

/-- A descent gives the same as reading into a draft, and it pulls at one place after another. At
each of them its stack is the increasing list of the parentheses that are open, one for each call; a
call that ends leaves it as found. So the stack is not empty where a group is not closed, at most
one call more is open than groups may be, and the lists of an accepted text nest no deeper. -/
theorem read_stack (text : String) :
    (read text).result = Tree.read text ∧
    pulls (read text) <+: Pull.places ⟨0, text.toList⟩ ∧
    (∀ t, Tree.read text = .ok t → pulls (read text) = Pull.places ⟨0, text.toList⟩) ∧
    (∀ calls parens rest, .pulling calls parens rest ∈ (read text).events →
      ∃ before, text.toList = before ++ rest.item ∧ rest.offset = Utf8.size before ∧
        parens.Pairwise (· < ·) ∧
        (∀ start, start ∈ parens ↔
          ∃ p q, before = p ++ '(' :: q ∧ start = Utf8.size p ∧ StaysOpen q) ∧
        parens.length = calls ∧ calls ≤ maxNestingDepth) ∧
    (∀ found left, .returned found left ∈ (read text).events → left = found) ∧
    (∀ parens, .unclosed parens ∈ (read text).events → parens ≠ []) ∧
    (∀ calls, .called calls ∈ (read text).events → calls ≤ maxNestingDepth + 1) ∧
    ∀ t, Tree.read text = .ok t → (Value.ofTree t).depth ≤ maxNestingDepth + 1 := by
  have hs := stands_start text.toList
  have hr : (read text).result = Tree.read text := (resume_outside hs).symm
  have he : ∀ m ∈ (read text).events, m.Sound text.toList := (keeps_outside hs).events
  obtain ⟨more, hp, hm⟩ : Covers (Pull.places ⟨0, text.toList⟩) (read text) _ := covers_outside
  refine ⟨hr, ⟨more, hp.symm⟩, fun t ht => ?_, fun calls parens rest h => ?_,
    fun found left h => ?_, fun parens h => ?_, fun calls h => ?_,
    fun t => Value.depth_ofTree_read_le⟩
  · rw [hp, hm t (hr.trans ht), List.append_nil]
  · cases he _ h with
    | pulling hp => exact hp.exists_before
  · cases he _ h with
    | returned => rfl
  · cases he _ h with
    | unclosed hn => exact hn
  · cases he _ h with
    | called hc => exact hc

theorem read_stack_reopened :
    let text := "(1 (2) (3"
    .pulling 2 [0, 7] ⟨9, []⟩ ∈ (read text).events ∧
      .returned [0] [0] ∈ (read text).events ∧ .unclosed [0, 7] ∈ (read text).events ∧
      ∀ start, start ∈ [0, 7] ↔
        ∃ p q, text.toList = p ++ '(' :: q ∧ start = Utf8.size p ∧ StaysOpen q := by
  intro text
  have hp : .pulling 2 [0, 7] ⟨9, []⟩ ∈ (read text).events := by decide +kernel
  obtain ⟨before, hb, -, -, hm, -⟩ := (read_stack text).2.2.2.1 2 [0, 7] ⟨9, []⟩ hp
  rw [List.append_nil] at hb
  exact ⟨hp, by decide +kernel, by decide +kernel, hb ▸ hm⟩

end Descent

end SexprCalc
