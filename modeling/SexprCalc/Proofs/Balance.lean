import SexprCalc.Proofs.Drafting

namespace SexprCalc

namespace Token

def depth (ts : List Token) : Int :=
  (ts.count .opening : Int) - ts.count .closing

structure Balanced (ts : List Token) : Prop where
  wellFormed : ∀ t ∈ ts, t.WellFormed
  within : ∀ p, p <+: ts → 0 ≤ depth p ∧ depth p ≤ maxNestingDepth
  closed : depth ts = 0

lemma depth_cons (t : Token) (ts : List Token) : depth (t :: ts) = depth [t] + depth ts := by
  simp only [depth, List.count_cons, List.count_nil]
  omega

lemma depth_append (ts us : List Token) : depth (ts ++ us) = depth ts + depth us := by
  simp only [depth, List.count_append]
  omega

end Token

namespace Draft

open Token

lemma length_groups_step {d d' : Draft} {t : Located Token} (h : d.step t = .ok d') :
    (d'.groups.length : Int) = d.groups.length + depth [t.item] := by
  rcases step_cases h with ⟨ht, -, rfl⟩ | ⟨ht, g, gs, hg, rfl⟩ | ⟨leaf, hl, rfl⟩
  · rw [ht]
    rfl
  · rw [ht, length_groups_add, hg]
    exact (Int.add_sub_cancel (gs.length : Int) 1).symm
  · rw [length_groups_add]
    rcases leaf?_cases hl with ⟨s, ht, -⟩ | ⟨s, ht, -⟩ <;> rw [ht] <;> rfl

lemma exists_step_iff {d : Draft} {t : Located Token} (hd : d.groups.length ≤ maxNestingDepth) :
    (∃ d', d.step t = .ok d') ↔ 0 ≤ d.groups.length + depth [t.item] ∧
      d.groups.length + depth [t.item] ≤ maxNestingDepth := by
  constructor
  · rintro ⟨d', h⟩
    have hl := length_groups_step h
    refine ⟨by omega, ?_⟩
    rcases step_cases h with ⟨ht, hlt, -⟩ | ⟨ht, -⟩ | ⟨leaf, hleaf, rfl⟩
    · have ho : depth [t.item] = 1 := by rw [ht]; rfl
      omega
    · have hc : depth [t.item] = -1 := by rw [ht]; rfl
      omega
    · rw [length_groups_add] at hl
      omega
  · rintro ⟨h0, hm⟩
    cases hs : d.step t with
    | ok d' => exact ⟨d', rfl⟩
    | error e =>
      rcases step_error_cases hs with ⟨ht, hle, -⟩ | ⟨ht, hg, -⟩
      · have ho : depth [t.item] = 1 := by rw [ht]; rfl
        omega
      · have hc : depth [t.item] = -1 := by rw [ht]; rfl
        rw [hg, List.length_nil] at h0
        omega

lemma length_groups_steps {d d' : Draft} {us : List (Located Token)} (h : d.steps us = .ok d') :
    (d'.groups.length : Int) = d.groups.length + depth (us.map Located.item) := by
  induction us generalizing d with
  | nil =>
    cases h
    simp [depth]
  | cons u us ih =>
    rw [steps] at h
    split at h
    · next d₁ h₁ =>
      rw [ih h, length_groups_step h₁, List.map_cons, depth_cons u.item (us.map _), Int.add_assoc]
    · cases h

lemma exists_steps_iff {d : Draft} {us : List (Located Token)}
    (hd : d.groups.length ≤ maxNestingDepth) :
    (∃ d', d.steps us = .ok d') ↔ ∀ p, p <+: us.map Located.item →
      0 ≤ d.groups.length + depth p ∧ d.groups.length + depth p ≤ maxNestingDepth := by
  induction us generalizing d with
  | nil =>
    refine ⟨fun _ p hp => ?_, fun _ => ⟨d, rfl⟩⟩
    rw [List.prefix_nil.mp hp]
    simp only [depth, List.count_nil]
    omega
  | cons u us ih =>
    constructor
    · rintro ⟨d', hs⟩ p hp
      rw [steps] at hs
      split at hs
      · next d₁ h₁ =>
        have hb := (exists_step_iff hd).mp ⟨d₁, h₁⟩
        have hl := length_groups_step h₁
        rcases List.prefix_cons_iff.mp hp with rfl | ⟨q, rfl, hq⟩
        · simp only [depth, List.count_nil]
          omega
        · have hm : d₁.groups.length ≤ maxNestingDepth := by omega
          have hi := (ih hm).mp ⟨d', hs⟩ q hq
          rw [depth_cons]
          omega
      · cases hs
    · intro h
      have hb := h [u.item] (by simp)
      obtain ⟨d₁, h₁⟩ := (exists_step_iff hd).mpr hb
      have hl := length_groups_step h₁
      have hm : d₁.groups.length ≤ maxNestingDepth := by omega
      have hrest : ∃ d', d₁.steps us = .ok d' := by
        apply (ih hm).mpr
        intro p hp
        have hu := h (u.item :: p) (List.cons_prefix_cons.mpr ⟨rfl, hp⟩)
        rw [depth_cons] at hu
        omega
      obtain ⟨d', hs⟩ := hrest
      refine ⟨d', ?_⟩
      rw [steps, h₁]
      exact hs

end Draft

end SexprCalc
