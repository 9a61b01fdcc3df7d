import SexprCalc.Value.Basic

/-! A value as a flat row of words: a leaf is one word, a list is its cells between two brackets. A
row is read from its end, so that a closing word starts a level and an opening word completes it. -/

namespace SexprCalc

inductive Word
  | opening
  | closing
  | number (n : Int64)
  | failure (message : String)
  | symbol (name : String)
  deriving DecidableEq, Repr

namespace Value

def words : Value → List Word :=
  fold (fun n => [.number n]) (fun m => [.failure m]) (fun s => [.symbol s])
    fun parts => .opening :: parts.flatten ++ [.closing]

def prepend : Word → List (List Value) → Option (List (List Value))
  | .closing, levels => some ([] :: levels)
  | .opening, cells :: level :: levels => some ((.list cells :: level) :: levels)
  | .number n, level :: levels => some ((.number n :: level) :: levels)
  | .failure m, level :: levels => some ((.failure m :: level) :: levels)
  | .symbol s, level :: levels => some ((.symbol s :: level) :: levels)
  | _, _ => none

def levels? (ws : List Word) (after : Option (List (List Value))) : Option (List (List Value)) :=
  ws.foldr (fun w levels => levels.bind (prepend w)) after

def ofWords? (ws : List Word) : Option Value :=
  match levels? ws (some [[]]) with
  | some [[v]] => some v
  | _ => none

theorem words_list (cells : List Value) :
    words (.list cells) = .opening :: cells.flatMap words ++ [.closing] := by
  simp only [words, fold_list, List.flatMap]

theorem levels?_words (v : Value) (level : List Value) (levels : List (List Value)) :
    levels? v.words (some (level :: levels)) = some ((v :: level) :: levels) := by
  induction v generalizing level levels with
  | number n => rfl
  | failure m => rfl
  | symbol s => rfl
  | list cells ih =>
    have row (vs : List Value) (hvs : ∀ v ∈ vs, v ∈ cells) (done : List Value) :
        levels? (vs.flatMap words) (some (done :: level :: levels)) =
          some ((vs ++ done) :: level :: levels) := by
      induction vs with
      | nil => rfl
      | cons v vs ihs =>
        have hv := ih v (hvs v List.mem_cons_self)
        have hs := ihs fun u hu => hvs u (List.mem_cons_of_mem v hu)
        simp only [levels?, List.flatMap_cons, List.foldr_append] at hv hs ⊢
        rw [hs, hv, List.cons_append]
    have hrow := row cells (fun _ h => h) []
    simp only [levels?, words_list, List.cons_append, List.foldr_cons, List.foldr_append,
      List.foldr_nil, Option.bind_some, prepend] at hrow ⊢
    simp [hrow, prepend]

theorem ofWords?_words (v : Value) : ofWords? v.words = some v := by
  rw [ofWords?, levels?_words]

end Value

end SexprCalc
