import SexprCalc.Proofs.Descent

namespace SexprCalc

def Pull.places (rest : Located (List Char)) : List (Located (List Char)) :=
  rest ::
    match hp : next rest.offset rest.item with
    | .ended => []
    | .refused _ => []
    | .token _ after =>
      have _ := next_lt hp
      places after
  termination_by rest.item.length

lemma Pull.places_eq (rest : Located (List Char)) : places rest = rest :: (places rest).tail := by
  rw [places]
  rfl

lemma Pull.places_ended {rest : Located (List Char)}
    (hp : next rest.offset rest.item = .ended) : (places rest).tail = [] := by
  rw [places]
  split <;> simp_all

lemma Pull.places_token {rest after : Located (List Char)} {t : Located Token}
    (hp : next rest.offset rest.item = .token t after) :
    (places rest).tail = places after := by
  rw [places]
  split <;> simp_all

namespace Descent

open Watched

def Moment.place? : Moment → Option (Located (List Char))
  | pulling _ _ rest => some rest
  | _ => none

variable {α β : Type}

def pulls (s : Descent α) : List (Located (List Char)) :=
  s.events.filterMap Moment.place?

def Covers (places : List (Located (List Char))) (s : Descent α)
    (left : α → List (Located (List Char))) : Prop :=
  ∃ more, places = pulls s ++ more ∧ ∀ x, s.result = .ok x → more = left x

variable {places : List (Located (List Char))} {left : α → List (Located (List Char))}

lemma covers_pure {x : α} (h : places = left x) : Covers places (pure x) left := by
  refine ⟨places, rfl, fun y hy => ?_⟩
  cases hy
  exact h

lemma covers_fail (e : ReadError) : Covers places (fail e) left :=
  ⟨places, rfl, fun _ h => nomatch h⟩

lemma covers_note {m : Moment} (h : m.place? = none) :
    Covers places (note m) fun _ => places := by
  refine ⟨places, ?_, fun _ _ => rfl⟩
  simp [pulls, note, h]

lemma covers_pulling (calls : Nat) (parens : List Nat) (rest : Located (List Char)) :
    Covers (rest :: places) (note (.pulling calls parens rest)) fun _ => places :=
  ⟨places, rfl, fun _ _ => rfl⟩

lemma Covers.bind {s : Descent α} {next : α → Descent β} {last : β → List (Located (List Char))}
    (h : Covers places s left) (hn : ∀ x, Covers (left x) (next x) last) :
    Covers places (s >>= next) last := by
  obtain ⟨more, rfl, hm⟩ := h
  cases hr : s.result with
  | ok x =>
    obtain ⟨further, hf, hl⟩ := hn x
    rw [bind_of_ok hr, hm x hr, hf]
    exact ⟨further, by simp [pulls], hl⟩
  | error e =>
    rw [bind_of_error hr]
    exact ⟨more, rfl, fun _ h => nomatch h⟩

variable {calls : Nat} {parens : List Nat} {expressions : List Tree}
  {rest after origin : Located (List Char)}

lemma covers_group {start : Nat} (h : rest.item.length < origin.item.length)
    (hi : Covers (Pull.places rest) (inside calls (parens ++ [start]) [] rest h)
      fun c => Pull.places c.rest) :
    Covers (Pull.places rest) (group calls start parens rest h) fun c => Pull.places c.rest := by
  rw [group]
  apply Covers.bind (covers_note rfl)
  intro _
  split
  · exact covers_fail _
  · apply hi.bind
    intro c
    exact Covers.bind (covers_note rfl) fun _ => covers_pure rfl

lemma covers_inside (h : rest.item.length < origin.item.length) :
    Covers (Pull.places rest) (inside calls parens expressions rest h)
      fun c => Pull.places c.rest := by
  induction hl : rest.item.length using Nat.strongRecOn
    generalizing calls parens expressions rest origin with
  | ind m ih =>
    subst hl
    rw [inside, Pull.places_eq rest]
    apply (covers_pulling calls parens rest).bind
    intro _
    split
    · exact Covers.bind (covers_note rfl) fun _ => covers_fail _
    · exact covers_fail _
    · next t after hp =>
      have ha := Pull.next_lt hp
      rw [Pull.places_token hp]
      obtain ⟨offset, t⟩ := t
      cases t with
      | opening =>
        apply (covers_group ha (ih _ ha _ rfl)).bind
        exact fun c => ih _ c.length_lt _ rfl
      | closing => exact covers_pure rfl
      | number s => exact ih _ ha _ rfl
      | symbol s => exact ih _ ha _ rfl

lemma covers_outside :
    Covers (Pull.places rest) (outside parens expressions rest) fun _ => [] := by
  induction hl : rest.item.length using Nat.strongRecOn generalizing parens expressions rest with
  | ind m ih =>
    subst hl
    rw [outside, Pull.places_eq rest]
    apply (covers_pulling 0 parens rest).bind
    intro _
    split
    · next hp => exact covers_pure (Pull.places_ended hp)
    · exact covers_fail _
    · next t after hp =>
      have ha := Pull.next_lt hp
      rw [Pull.places_token hp]
      obtain ⟨offset, t⟩ := t
      cases t with
      | opening =>
        apply (covers_group ha (covers_inside ha)).bind
        exact fun c => ih _ c.length_lt rfl
      | closing => exact covers_fail _
      | number s => exact ih _ ha rfl
      | symbol s => exact ih _ ha rfl

end Descent

end SexprCalc
