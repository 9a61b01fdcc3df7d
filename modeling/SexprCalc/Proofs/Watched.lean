import Mathlib.Tactic.Lemma

/-! Runs that may fail and keep their events: what happened stays known, whether they fail or not.
-/

namespace SexprCalc

structure Watched (event error α : Type) where
  events : List event
  result : Except error α

namespace Watched

variable {event error α β γ : Type}

def andThen (s : Watched event error α) (next : α → Watched event error β) :
    Watched event error β :=
  match s.result with
  | .ok x => ⟨s.events ++ (next x).events, (next x).result⟩
  | .error e => ⟨s.events, .error e⟩

instance : Monad (Watched event error) where
  pure x := ⟨[], .ok x⟩
  bind := andThen

def note (e : event) : Watched event error Unit :=
  ⟨[e], .ok ()⟩

def fail (e : error) : Watched event error α :=
  ⟨[], .error e⟩

lemma bind_of_ok {s : Watched event error α} {x : α} (h : s.result = .ok x)
    (next : α → Watched event error β) :
    (s >>= next) = ⟨s.events ++ (next x).events, (next x).result⟩ := by
  change s.andThen next = _
  rw [andThen, h]

lemma bind_of_error {s : Watched event error α} {e : error} (h : s.result = .error e)
    (next : α → Watched event error β) : (s >>= next) = ⟨s.events, .error e⟩ := by
  change s.andThen next = _
  rw [andThen, h]

lemma result_bind (s : Watched event error α) (next : α → Watched event error β) :
    (s >>= next).result = s.result.bind fun x => (next x).result := by
  cases h : s.result with
  | ok x => rw [bind_of_ok h]; rfl
  | error e => rw [bind_of_error h]; rfl

lemma result_bind_bind (s : Watched event error α) (next : α → Watched event error β)
    (f : β → Except error γ) :
    (s >>= next).result.bind f = s.result.bind fun x => (next x).result.bind f := by
  rw [result_bind]
  cases s.result <;> rfl

lemma result_note (e : event) (next : Unit → Watched event error β) :
    (note e >>= next).result = (next ()).result :=
  rfl

/-- All events are as `P` says, and the result, if there is one, is as `Q` says. -/
structure Keeps (P : event → Prop) (Q : α → Prop) (s : Watched event error α) : Prop where
  events : ∀ e ∈ s.events, P e
  result : ∀ x, s.result = .ok x → Q x

variable {P : event → Prop} {Q : α → Prop} {R : β → Prop}

lemma keeps_pure {x : α} (h : Q x) : Keeps P Q (pure x : Watched event error α) := by
  refine ⟨fun _ hm => absurd hm List.not_mem_nil, fun y hy => ?_⟩
  cases hy
  exact h

lemma keeps_note {e : event} (h : P e) :
    Keeps P (fun _ => True) (note e : Watched event error Unit) :=
  ⟨List.forall_mem_singleton.mpr h, fun _ _ => trivial⟩

lemma keeps_fail (e : error) : Keeps P Q (fail e : Watched event error α) :=
  ⟨fun _ hm => absurd hm List.not_mem_nil, fun _ h => nomatch h⟩

lemma Keeps.bind {s : Watched event error α} {next : α → Watched event error β} (h : Keeps P Q s)
    (hn : ∀ x, Q x → Keeps P R (next x)) : Keeps P R (s >>= next) := by
  cases hr : s.result with
  | ok x =>
    have hx := hn x (h.result x hr)
    rw [bind_of_ok hr]
    exact ⟨List.forall_mem_append.mpr ⟨h.events, hx.events⟩, hx.result⟩
  | error e =>
    rw [bind_of_error hr]
    exact ⟨h.events, fun _ hx => nomatch hx⟩

lemma Keeps.bind_congr {s : Watched event error α} (h : Keeps P Q s) {f g : α → Except error β}
    (hfg : ∀ x, Q x → f x = g x) : s.result.bind f = s.result.bind g := by
  cases hr : s.result with
  | ok x => exact hfg x (h.result x hr)
  | error e => rfl

end Watched

end SexprCalc
