import Mathlib.Data.List.Nodup
import Mathlib.Data.List.Perm.Basic
import Mathlib.Tactic.Lemma
import SexprCalc.Value.Edit

namespace SexprCalc

inductive Edit
  | append (child : Value)
  | detach (index : Nat)
  deriving DecidableEq

namespace Edit

def apply (v : Value) : Edit → Except EditError (Option Value × Value)
  | append child => (v.append child).map fun w => (none, w)
  | detach index => (v.detach index).map fun (child, w) => (some child, w)

def added : Edit → List Value
  | append child => [child]
  | detach _ => []

end Edit

structure Course where
  value : Value
  answers : List (Except EditError (Option Value))

namespace Course

/-- An edit that is refused leaves the value as it is. -/
def step (c : Course) (edit : Edit) : Course :=
  match edit.apply c.value with
  | .ok (cell, v) => ⟨v, c.answers ++ [.ok cell]⟩
  | .error e => ⟨c.value, c.answers ++ [.error e]⟩

def run (v : Value) (edits : List Edit) : Course :=
  edits.foldl step ⟨v, []⟩

def detached (c : Course) : List Value :=
  c.answers.filterMap fun answer => answer.toOption.join

end Course

/-- Positions of cells, all below `next`: those taken out, in this order, and those left. -/
structure Positions where
  taken : List Nat
  left : List Nat
  next : Nat
  deriving DecidableEq

namespace Positions

def start (count : Nat) : Positions :=
  ⟨[], List.range count, count⟩

def step (p : Positions) : Edit → Positions
  | .append _ => ⟨p.taken, p.left ++ [p.next], p.next + 1⟩
  | .detach index =>
    match p.left[index]? with
    | some position => ⟨p.taken ++ [position], p.left.erase position, p.next⟩
    | none => p

def run (count : Nat) (edits : List Edit) : Positions :=
  edits.foldl step (start count)

structure Conserved (p : Positions) : Prop where
  once : (p.taken ++ p.left).Perm (List.range p.next)
  ordered : p.left.Pairwise (· < ·)

lemma conserved_start (count : Nat) : (start count).Conserved :=
  ⟨List.Perm.refl _, List.pairwise_lt_range⟩

lemma Conserved.lt_next {p : Positions} (h : p.Conserved) :
    ∀ position ∈ p.taken ++ p.left, position < p.next :=
  fun _ hm => List.mem_range.mp (h.once.mem_iff.mp hm)

lemma step_detach_of_lt {p : Positions} (h : p.Conserved) {index : Nat}
    (hi : index < p.left.length) :
    p.step (.detach index) = ⟨p.taken ++ [p.left[index]], p.left.eraseIdx index, p.next⟩ := by
  rw [← h.ordered.nodup.erase_getElem index hi, step, List.getElem?_eq_getElem hi]

lemma step_detach_of_le {p : Positions} {index : Nat} (hi : p.left.length ≤ index) :
    p.step (.detach index) = p := by
  rw [step, List.getElem?_eq_none hi]

lemma Conserved.step {p : Positions} (h : p.Conserved) (edit : Edit) : (p.step edit).Conserved := by
  cases edit with
  | append child =>
    refine ⟨?_, List.pairwise_append.mpr ⟨h.ordered, List.pairwise_singleton .., ?_⟩⟩
    · change (p.taken ++ (p.left ++ [p.next])).Perm (List.range (p.next + 1))
      rw [← List.append_assoc, List.range_succ]
      exact h.once.append_right _
    · intro position hp next hn
      cases List.mem_singleton.mp hn
      exact h.lt_next position (List.mem_append_right _ hp)
  | detach index =>
    rcases Nat.lt_or_ge index p.left.length with hi | hi
    · rw [step_detach_of_lt h hi]
      refine ⟨?_, h.ordered.sublist (List.eraseIdx_sublist ..)⟩
      have he := (List.getElem_cons_eraseIdx_perm hi).append_left p.taken
      simpa using he.trans h.once
    · rw [step_detach_of_le hi]
      exact h

end Positions

namespace Course

structure Follows (c : Course) (ledger : List Value) (p : Positions) : Prop where
  next : p.next = ledger.length
  value : ∃ cells, c.value = .list cells ∧ cells.map some = p.left.map (ledger[·]?)
  detached : c.detached.map some = p.taken.map (ledger[·]?)

variable {c : Course} {cells : List Value}

lemma step_append (h : c.value = .list cells) (child : Value) :
    c.step (.append child) = ⟨.list (cells ++ [child]), c.answers ++ [.ok none]⟩ := by
  rw [step, h]
  rfl

lemma step_detach_of_lt (h : c.value = .list cells) {index : Nat} (hi : index < cells.length) :
    c.step (.detach index) =
      ⟨.list (cells.eraseIdx index), c.answers ++ [.ok (some cells[index])]⟩ := by
  simp only [step, h, Edit.apply, Value.detach, List.getElem?_eq_getElem hi, Except.map]

lemma step_detach_of_le (h : c.value = .list cells) {index : Nat} (hi : cells.length ≤ index) :
    c.step (.detach index) = ⟨c.value, c.answers ++ [.error (.indexOutOfRange index)]⟩ := by
  simp only [step, h, Edit.apply, Value.detach, List.getElem?_eq_none hi, Except.map]

lemma detached_concat (v : Value) (answer : Except EditError (Option Value)) :
    (Course.mk v (c.answers ++ [answer])).detached = c.detached ++ answer.toOption.join.toList := by
  rw [Course.detached, List.filterMap_append]
  cases h : answer.toOption.join <;> simp [Course.detached, h]

lemma follows_start (xs : List Value) :
    (Course.mk (.list xs) []).Follows xs (.start xs.length) := by
  refine ⟨rfl, ⟨xs, rfl, ?_⟩, rfl⟩
  apply List.ext_getElem
  · simp [Positions.start]
  · intro i _ _
    simp [Positions.start]

lemma lookup_append {ledger : List Value} {positions : List Nat}
    (h : ∀ position ∈ positions, position < ledger.length) (later : List Value) :
    positions.map ((ledger ++ later)[·]?) = positions.map (ledger[·]?) :=
  List.map_congr_left fun position hp => List.getElem?_append_left (h position hp)

variable {ledger : List Value} {p : Positions}

lemma Follows.append (h : c.Follows ledger p) (hp : p.Conserved) (child : Value) :
    (c.step (.append child)).Follows (ledger ++ [child]) (p.step (.append child)) := by
  obtain ⟨cells, hv, hc⟩ := h.value
  -- What is found at a position does not change when the ledger grows behind it.
  obtain ⟨ht, hl⟩ := List.forall_mem_append.mp (h.next ▸ hp.lt_next)
  rw [step_append hv]
  refine ⟨?_, ⟨_, rfl, ?_⟩, ?_⟩
  · simp [Positions.step, h.next]
  · change _ = (p.left ++ [p.next]).map _
    rw [List.map_append, List.map_append, lookup_append hl, ← hc, h.next]
    simp
  · change _ = p.taken.map _
    rw [lookup_append ht, ← h.detached, detached_concat]
    exact congrArg _ (List.append_nil _)

lemma Follows.detach (h : c.Follows ledger p) (hp : p.Conserved) (index : Nat) :
    (c.step (.detach index)).Follows ledger (p.step (.detach index)) := by
  obtain ⟨cells, hv, hc⟩ := h.value
  have hl : cells.length = p.left.length := by simpa using congrArg List.length hc
  rcases Nat.lt_or_ge index p.left.length with hi | hi
  · have hx : some cells[index] = ledger[p.left[index]]? := by
      simpa [hl, hi] using congrArg (·[index]?) hc
    rw [step_detach_of_lt hv (hl ▸ hi), Positions.step_detach_of_lt hp hi]
    refine ⟨h.next, ⟨_, rfl, ?_⟩, ?_⟩
    · rw [← List.eraseIdx_map, hc, List.eraseIdx_map]
    · rw [detached_concat, List.map_append, List.map_append, h.detached]
      exact congrArg _ (congrArg (fun v => [v]) hx)
  · rw [step_detach_of_le hv (hl ▸ hi), Positions.step_detach_of_le hi]
    refine ⟨h.next, ⟨cells, hv, hc⟩, ?_⟩
    rw [detached_concat, ← h.detached]
    exact congrArg _ (List.append_nil _)

lemma Follows.step (h : c.Follows ledger p) (hp : p.Conserved) (edit : Edit) :
    (c.step edit).Follows (ledger ++ edit.added) (p.step edit) := by
  cases edit with
  | append child => exact h.append hp child
  | detach index =>
    rw [Edit.added, List.append_nil]
    exact h.detach hp index

lemma Follows.foldl (h : c.Follows ledger p) (hp : p.Conserved) (edits : List Edit) :
    (edits.foldl Course.step c).Follows (ledger ++ edits.flatMap Edit.added)
        (edits.foldl Positions.step p) ∧
      (edits.foldl Positions.step p).Conserved := by
  induction edits generalizing c ledger p with
  | nil => exact ⟨by simpa using h, hp⟩
  | cons edit edits ih =>
    rw [List.flatMap_cons, ← List.append_assoc]
    exact ih (h.step hp edit) (hp.step edit)

lemma run_follows (xs : List Value) (edits : List Edit) :
    (run (.list xs) edits).Follows (xs ++ edits.flatMap Edit.added)
        (Positions.run xs.length edits) ∧
      (Positions.run xs.length edits).Conserved :=
  (follows_start xs).foldl (Positions.conserved_start xs.length) edits

lemma Follows.length (h : c.Follows ledger p) (hp : p.Conserved) :
    c.value.cells.length + c.detached.length = ledger.length := by
  obtain ⟨cells, hv, hc⟩ := h.value
  have hl := congrArg List.length hc
  have hd := congrArg List.length h.detached
  have hn := hp.once.length_eq
  simp only [List.length_map, List.length_append, List.length_range] at hl hd hn
  rw [hv, ← h.next, ← hn, hd, ← hl, Nat.add_comm]
  rfl

lemma detach_of_leaf {v : Value} (h : ∀ cells, v ≠ .list cells) (child : Value) (index : Nat) :
    v.append child = .error (.appendToLeaf v) ∧
      v.detach index = .error (.detachFromLeaf v) ∧
      v.select index = .error (.detachFromLeaf v) := by
  cases v with
  | list cells => exact absurd rfl (h cells)
  | _ => exact ⟨rfl, rfl, rfl⟩

lemma select_eq_ok_iff {v child : Value} {index : Nat} :
    v.select index = .ok child ↔ ∃ rest, v.detach index = .ok (child, rest) := by
  rw [Value.select]
  cases v.detach index <;> simp [Except.map, Prod.ext_iff]

lemma select_eq_error_iff {v : Value} {index : Nat} {e : EditError} :
    v.select index = .error e ↔ v.detach index = .error e := by
  rw [Value.select]
  cases v.detach index <;> simp [Except.map]

lemma run_concat (v : Value) (edits : List Edit) (edit : Edit) :
    run v (edits ++ [edit]) = (run v edits).step edit :=
  List.foldl_concat ..

/-- Every cell that was there or was appended comes off once or is left, and those that are left
stay in order; equal cells are told apart by their positions. A list only refuses to detach behind
its last cell, and is then as it was. A leaf refuses every edit. -/
theorem run_conserves :
    (∀ (xs : List Value) (edits : List Edit),
      let ledger := xs ++ edits.flatMap Edit.added
      let c := run (.list xs) edits
      let p := Positions.run xs.length edits
      (p.taken ++ p.left).Perm (List.range ledger.length) ∧
      p.left.Pairwise (· < ·) ∧
      c.detached.map some = p.taken.map (ledger[·]?) ∧
      (∃ cells, c.value = .list cells ∧ cells.map some = p.left.map (ledger[·]?)) ∧
      c.value.cells.length + c.detached.length =
        xs.length + (edits.flatMap Edit.added).length ∧
      ∀ index,
        (c.value.cells.length ≤ index → run (.list xs) (edits ++ [.detach index]) =
          ⟨c.value, c.answers ++ [.error (.indexOutOfRange index)]⟩) ∧
        (index < c.value.cells.length → ∃ child rest, run (.list xs) (edits ++ [.detach index]) =
          ⟨rest, c.answers ++ [.ok (some child)]⟩)) ∧
    (∀ (v : Value) (index : Nat),
      (∀ child, v.select index = .ok child ↔ ∃ rest, v.detach index = .ok (child, rest)) ∧
      ∀ e, v.select index = .error e ↔ v.detach index = .error e) ∧
    ∀ v : Value, (∀ cells, v ≠ .list cells) → ∀ child index,
      v.append child = .error (.appendToLeaf v) ∧
      v.detach index = .error (.detachFromLeaf v) ∧
      v.select index = .error (.detachFromLeaf v) := by
  refine ⟨fun xs edits => ?_, fun v index => ⟨fun _ => select_eq_ok_iff,
    fun _ => select_eq_error_iff⟩, fun v h => detach_of_leaf h⟩
  intro ledger c p
  obtain ⟨hf, hp⟩ := run_follows xs edits
  obtain ⟨cells, hv, hc⟩ := hf.value
  have hcells : c.value.cells = cells := congrArg Value.cells hv
  refine ⟨hf.next ▸ hp.once, hp.ordered, hf.detached, ⟨cells, hv, hc⟩, ?_, fun index => ?_⟩
  · exact (hf.length hp).trans List.length_append
  · rw [run_concat, hcells]
    exact ⟨step_detach_of_le hv, fun hi => ⟨_, _, step_detach_of_lt hv hi⟩⟩

theorem run_conserves_repeated :
    let xs : List Value := [.number 7, .symbol "+", .number 7]
    let edits : List Edit := [.detach 3, .detach 0, .append (.number 7), .detach 1]
    let c := run (.list xs) edits
    Positions.run 3 edits = ⟨[0, 2], [1, 3], 4⟩ ∧
      c.value = .list [.symbol "+", .number 7] ∧ c.detached = [.number 7, .number 7] ∧
      c.value.cells.length + c.detached.length = 4 ∧
      run (.list xs) (edits ++ [.detach 2]) =
        ⟨c.value, c.answers ++ [.error (.indexOutOfRange 2)]⟩ ∧
      (∃ child rest, run (.list xs) (edits ++ [.detach 1]) =
        ⟨rest, c.answers ++ [.ok (some child)]⟩) ∧
      (Value.symbol "+").select 0 = .error (.detachFromLeaf (.symbol "+")) := by
  intro xs edits c
  obtain ⟨hr, -, hl⟩ := run_conserves
  obtain ⟨-, -, -, -, hn, hi⟩ := hr xs edits
  exact ⟨by decide, rfl, rfl, hn, (hi 2).1 (by decide), (hi 1).2 (by decide),
    (hl (.symbol "+") (fun _ => Value.noConfusion) (.number 7) 0).2.2⟩

end Course

end SexprCalc
