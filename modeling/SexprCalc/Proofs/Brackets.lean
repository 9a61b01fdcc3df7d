import Mathlib.Tactic.Lemma
import SexprCalc.Text.Utf8

namespace SexprCalc.Brackets

open Text

def depth (cs : List Char) : Int :=
  (cs.count '(' : Int) - cs.count ')'

/-- No part of `after` closes more groups than it opens, so a group that is open before `after`
stays open. -/
def StaysOpen (after : List Char) : Prop :=
  ∀ p, p <+: after → 0 ≤ depth p

def Balanced (cs : List Char) : Prop :=
  StaysOpen cs ∧ depth cs = 0

def NestsWithin (n : Nat) (cs : List Char) : Prop :=
  ∀ p, p <+: cs → depth p ≤ n

/-- The groups that are open after a text start at these offsets, innermost first. -/
inductive OpenAt : List Char → List Nat → Prop
  | closed {cs} : Balanced cs → OpenAt cs []
  | opened {before cs starts} : OpenAt before starts → Balanced cs →
      OpenAt (before ++ '(' :: cs) (Utf8.size before :: starts)

@[simp] lemma depth_nil : depth [] = 0 := rfl

@[simp] lemma depth_append (cs ds : List Char) : depth (cs ++ ds) = depth cs + depth ds := by
  simp only [depth, List.count_append]
  omega

@[simp] lemma depth_opening (cs : List Char) : depth ('(' :: cs) = depth cs + 1 := by
  simp only [depth, List.count_cons]
  simp
  omega

@[simp] lemma depth_closing (cs : List Char) : depth (')' :: cs) = depth cs - 1 := by
  simp only [depth, List.count_cons]
  simp
  omega

lemma depth_cons_other {c : Char} {cs : List Char} (h : c ≠ '(' ∧ c ≠ ')') :
    depth (c :: cs) = depth cs := by
  simp [depth, List.count_cons_of_ne h.1, List.count_cons_of_ne h.2]

lemma depth_other {cs : List Char} (h : ∀ c ∈ cs, c ≠ '(' ∧ c ≠ ')') : depth cs = 0 := by
  induction cs with
  | nil => rfl
  | cons c cs ih =>
    obtain ⟨hc, hcs⟩ := List.forall_mem_cons.mp h
    rw [depth_cons_other hc, ih hcs]

lemma StaysOpen.depth {cs : List Char} (h : StaysOpen cs) : 0 ≤ depth cs :=
  h cs (List.prefix_refl cs)

lemma StaysOpen.append {cs ds : List Char} (hc : StaysOpen cs) (hd : StaysOpen ds) :
    StaysOpen (cs ++ ds) := by
  intro p hp
  rcases List.prefix_or_prefix_of_prefix hp (List.prefix_append cs ds) with h | ⟨q, rfl⟩
  · exact hc p h
  · have := hc.depth
    have := hd q ((List.prefix_append_right_inj cs).mp hp)
    rw [depth_append]
    omega

lemma StaysOpen.opening {cs : List Char} (h : StaysOpen cs) : StaysOpen ('(' :: cs) := by
  intro p hp
  rcases List.prefix_cons_iff.mp hp with rfl | ⟨q, rfl, hq⟩
  · exact Int.le_refl 0
  · have := h q hq
    rw [depth_opening]
    omega

lemma balanced_nil : Balanced [] :=
  ⟨fun p hp => by simp [List.prefix_nil.mp hp], rfl⟩

lemma balanced_other {cs : List Char} (h : ∀ c ∈ cs, c ≠ '(' ∧ c ≠ ')') : Balanced cs :=
  ⟨fun _ hp => Int.le_of_eq (depth_other fun c hc => h c (hp.subset hc)).symm, depth_other h⟩

lemma Balanced.append {cs ds : List Char} (hc : Balanced cs) (hd : Balanced ds) :
    Balanced (cs ++ ds) :=
  ⟨hc.1.append hd.1, by rw [depth_append, hc.2, hd.2, Int.add_zero]⟩

lemma Balanced.group {cs : List Char} (h : Balanced cs) : Balanced ('(' :: cs ++ [')']) := by
  refine ⟨?_, by simp [h.2]⟩
  intro p hp
  rcases List.prefix_concat_iff.mp hp with rfl | hp
  · simp [h.2]
  · exact h.1.opening p hp

lemma Balanced.not_staysOpen {cs p q : List Char} (h : Balanced cs) (hs : cs = p ++ '(' :: q) :
    ¬StaysOpen q := by
  intro hq
  have hp : 0 ≤ depth p := h.1 p ⟨'(' :: q, hs.symm⟩
  have hd : depth p + (depth q + 1) = 0 := by rw [← depth_opening, ← depth_append, ← hs, h.2]
  have := hq.depth
  omega

lemma OpenAt.append {cs ds : List Char} {starts : List Nat} (h : OpenAt cs starts)
    (hd : Balanced ds) : OpenAt (cs ++ ds) starts := by
  cases h with
  | closed hc => exact .closed (hc.append hd)
  | opened hb hc =>
    rw [List.append_assoc, List.cons_append]
    exact .opened hb (hc.append hd)

lemma OpenAt.opening {cs : List Char} {starts : List Nat} (h : OpenAt cs starts) :
    OpenAt (cs ++ ['(']) (Utf8.size cs :: starts) :=
  .opened h balanced_nil

lemma OpenAt.closing {cs : List Char} {start : Nat} {starts : List Nat}
    (h : OpenAt cs (start :: starts)) : OpenAt (cs ++ [')']) starts := by
  cases h with
  | opened hb hc => simpa using hb.append hc.group

lemma OpenAt.depth {cs : List Char} {starts : List Nat} (h : OpenAt cs starts) :
    depth cs = starts.length := by
  induction h with
  | closed hc => exact hc.2
  | opened hb hc ih => simp [ih, hc.2]

end SexprCalc.Brackets
