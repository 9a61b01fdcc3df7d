import SexprCalc.Proofs.Drafting
import SexprCalc.Proofs.Watched

/-! Reading by recursive descent: every group is a call of its own, and the offsets of the open
parentheses are on a stack beside the calls. What happens on the way is kept. -/

namespace SexprCalc

open Text

inductive Pull
  | ended
  | refused (e : ReadError)
  | token (t : Located Token) (rest : Located (List Char))

namespace Pull

def next (offset : Nat) : List Char → Pull
  | [] => ended
  | c :: cs =>
    if Alphabet.isBlank c then next (offset + c.utf8Size) cs
    else
      match Scan.first? c cs with
      | none => refused (.unrecognized offset c)
      | some (t, after) => token ⟨offset, t⟩ ⟨offset + Utf8.size t.text.toList, after⟩

lemma next_eq_token {offset : Nat} {cs : List Char} {t : Located Token}
    {rest : Located (List Char)} (h : next offset cs = token t rest) :
    ∃ blanks, cs = blanks ++ t.item.text.toList ++ rest.item ∧
      (∀ c ∈ blanks, Alphabet.isBlank c = true) ∧ t.item.WellFormed ∧
      t.offset = offset + Utf8.size blanks ∧
      rest.offset = t.offset + Utf8.size t.item.text.toList ∧ rest.item.length < cs.length := by
  induction cs generalizing offset with
  | nil => cases h
  | cons c cs ih =>
    rw [next] at h
    split at h
    · next hb =>
      obtain ⟨blanks, rfl, hbs, hw, ht, hr, hl⟩ := ih h
      refine ⟨c :: blanks, rfl, List.forall_mem_cons.mpr ⟨hb, hbs⟩, hw, ?_, hr,
        Nat.lt_succ_of_lt hl⟩
      rw [ht, Utf8.size_cons, Nat.add_assoc]
    · split at h
      · cases h
      · next u after hf =>
        cases h
        exact ⟨[], (Scan.first?_append hf).symm, by simp, Scan.first?_wellFormed hf, rfl, rfl,
          Nat.lt_succ_of_le (Scan.first?_length_le hf)⟩

lemma next_lt {rest after : Located (List Char)} {t : Located Token}
    (hp : next rest.offset rest.item = token t after) : after.item.length < rest.item.length := by
  obtain ⟨_, _, _, _, _, _, hl⟩ := next_eq_token hp
  exact hl

lemma next_lt_trans {rest after origin : Located (List Char)} {t : Located Token}
    (hp : next rest.offset rest.item = token t after)
    (h : rest.item.length < origin.item.length) : after.item.length < origin.item.length :=
  Nat.lt_trans (next_lt hp) h

end Pull

lemma Draft.resume_eq_next (d : Draft) (offset : Nat) (cs : List Char) :
    d.resume offset cs =
      match Pull.next offset cs with
      | .ended => d.finish
      | .refused e => .error e
      | .token t rest => (d.step t).bind fun d => d.resume rest.offset rest.item := by
  induction cs generalizing offset with
  | nil => exact resume_nil d offset
  | cons c cs ih =>
    cases hb : Alphabet.isBlank c with
    | true => rw [resume_blank _ _ _ hb, ih, Pull.next, if_pos hb]
    | false =>
      rw [Pull.next, if_neg (by simp [hb])]
      cases hf : Scan.first? c cs with
      | none => exact resume_stop d offset hb hf
      | some p =>
        obtain ⟨t, after⟩ := p
        cases hs : d.step ⟨offset, t⟩ with
        | ok d' => simpa [hs, Except.bind] using resume_token hb hf hs
        | error e => simpa [hs, Except.bind] using resume_fault hb hf hs

lemma Draft.resume_ended (d : Draft) {rest : Located (List Char)}
    (hp : Pull.next rest.offset rest.item = .ended) :
    d.resume rest.offset rest.item = d.finish := by
  rw [resume_eq_next, hp]

lemma Draft.resume_refused (d : Draft) {rest : Located (List Char)} {e : ReadError}
    (hp : Pull.next rest.offset rest.item = .refused e) :
    d.resume rest.offset rest.item = .error e := by
  rw [resume_eq_next, hp]

lemma Draft.resume_next (d : Draft) {rest after : Located (List Char)} {t : Located Token}
    (hp : Pull.next rest.offset rest.item = .token t after) :
    d.resume rest.offset rest.item =
      (d.step t).bind fun d => d.resume after.offset after.item := by
  rw [resume_eq_next, hp]

namespace Descent

/-- What a parser goes through. The calls are those for groups that are not closed yet. -/
inductive Moment
  | called (calls : Nat)
  | pulling (calls : Nat) (parens : List Nat) (rest : Located (List Char))
  | unclosed (parens : List Nat)
  | returned (found left : List Nat)
  deriving DecidableEq

structure Closed (origin : Located (List Char)) where
  tree : Tree
  parens : List Nat
  rest : Located (List Char)
  length_lt : rest.item.length < origin.item.length

lemma Closed.length_lt_trans {rest origin : Located (List Char)} (c : Closed rest)
    (h : rest.item.length < origin.item.length) : c.rest.item.length < origin.item.length :=
  Nat.lt_trans c.length_lt h

end Descent

abbrev Descent := Watched Descent.Moment ReadError

namespace Descent

open Watched

def unbalanced (parens : List Nat) : ReadError :=
  .unbalanced (parens.getLast?.getD 0)

mutual

def group (calls start : Nat) (parens : List Nat) (rest : Located (List Char))
    {origin : Located (List Char)} (h : rest.item.length < origin.item.length) :
    Descent (Closed origin) := do
  note (.called calls)
  if maxNestingDepth ≤ parens.length then fail (.tooDeep start)
  else
    let closed ← inside calls (parens ++ [start]) [] rest h
    note (.returned parens closed.parens)
    return closed
  termination_by 2 * rest.item.length + 1

def inside (calls : Nat) (parens : List Nat) (expressions : List Tree)
    (rest : Located (List Char)) {origin : Located (List Char)}
    (h : rest.item.length < origin.item.length) : Descent (Closed origin) := do
  note (.pulling calls parens rest)
  match hp : Pull.next rest.offset rest.item with
  | .ended =>
    note (.unclosed parens)
    fail (unbalanced parens)
  | .refused e => fail e
  | .token t after =>
    have ha := Pull.next_lt hp
    match t.item with
    | .opening =>
      let closed ← group (calls + 1) t.offset parens after ha
      have _ := closed.length_lt
      inside calls closed.parens (closed.tree :: expressions) closed.rest
        (closed.length_lt_trans h)
    | .closing =>
      return ⟨.group expressions.reverse, parens.dropLast, after, Pull.next_lt_trans hp h⟩
    | .number s => inside calls parens (.number s :: expressions) after (Pull.next_lt_trans hp h)
    | .symbol s => inside calls parens (.symbol s :: expressions) after (Pull.next_lt_trans hp h)
  termination_by 2 * rest.item.length

end

def outside (parens : List Nat) (expressions : List Tree) (rest : Located (List Char)) :
    Descent Tree := do
  note (.pulling 0 parens rest)
  match hp : Pull.next rest.offset rest.item with
  | .ended => return .root expressions.reverse
  | .refused e => fail e
  | .token t after =>
    have ha := Pull.next_lt hp
    match t.item with
    | .opening =>
      let closed ← group 1 t.offset parens after ha
      have _ := closed.length_lt
      outside closed.parens (closed.tree :: expressions) closed.rest
    | .closing => fail (.unbalanced t.offset)
    | .number s => outside parens (.number s :: expressions) after
    | .symbol s => outside parens (.symbol s :: expressions) after
  termination_by rest.item.length

def read (text : String) : Descent Tree :=
  outside [] [] ⟨0, text.toList⟩

end Descent

end SexprCalc
