import Mathlib.Data.List.Chain
import Mathlib.Tactic.Lemma
import SexprCalc.Session.Run

namespace SexprCalc.Session

def rememberTyped (entries : List String) (line : String) : List String :=
  if line = "" then entries else remember entries line

/-- The lines that differ from the one before them. Before the first stands `previous`. -/
def unrepeated (previous : Option String) (lines : List String) : List String :=
  ((lines.zip (previous :: lines.map some)).filter fun p => some p.1 ≠ p.2).map Prod.fst

lemma unrepeated_nil (previous : Option String) : unrepeated previous [] = [] := rfl

lemma unrepeated_cons (previous : Option String) (line : String) (lines : List String) :
    unrepeated previous (line :: lines) =
      if previous = some line then unrepeated (some line) lines
      else line :: unrepeated (some line) lines := by
  by_cases h : previous = some line <;> simp [unrepeated, h, eq_comm]

lemma getLast?_remember (entries : List String) (line : String) :
    (remember entries line).getLast? = some line := by
  unfold remember
  split
  · next h => exact h
  · exact List.getLast?_concat

lemma foldl_remember (entries lines : List String) :
    lines.foldl remember entries = entries ++ unrepeated entries.getLast? lines := by
  induction lines generalizing entries with
  | nil => simp [unrepeated_nil]
  | cons line lines ih =>
    rw [List.foldl_cons, ih, getLast?_remember, remember, unrepeated_cons]
    split
    · rfl
    · simp

lemma foldl_rememberTyped (entries lines : List String) :
    lines.foldl rememberTyped entries = (lines.filter (· ≠ "")).foldl remember entries := by
  rw [List.foldl_filter]
  congr 1
  funext entries line
  by_cases h : line = "" <;> simp [rememberTyped, h]

lemma unrepeated_subset (previous : Option String) (lines : List String) :
    unrepeated previous lines ⊆ lines := by
  induction lines generalizing previous with
  | nil => exact List.Subset.refl []
  | cons line lines ih =>
    have hs : unrepeated (some line) lines ⊆ line :: lines :=
      List.Subset.trans (ih (some line)) (List.subset_cons_self line lines)
    rw [unrepeated_cons]
    split
    · exact hs
    · exact List.cons_subset.mpr ⟨List.mem_cons_self, hs⟩

lemma exists_added (entries lines : List String) : ∃ added,
    lines.foldl rememberTyped entries = entries ++ added ∧ ∀ entry ∈ added, entry ∈ lines := by
  refine ⟨_, (foldl_rememberTyped entries lines).trans (foldl_remember entries _), ?_⟩
  intro entry he
  exact List.mem_of_mem_filter (unrepeated_subset _ _ he)

lemma isChain_unrepeated (previous : Option String) (lines : List String) :
    (previous.toList ++ unrepeated previous lines).IsChain (· ≠ ·) := by
  induction lines generalizing previous with
  | nil => cases previous <;> simp [unrepeated_nil]
  | cons line lines ih =>
    have hc : (line :: unrepeated (some line) lines).IsChain (· ≠ ·) := ih (some line)
    rw [unrepeated_cons]
    split
    · next h =>
      rw [h]
      exact hc
    · next h =>
      cases previous with
      | none => exact hc
      | some last => exact hc.cons_cons (fun he => h (congrArg some he))

lemma subset_append_unrepeated (previous : Option String) (lines : List String) :
    lines ⊆ previous.toList ++ unrepeated previous lines := by
  induction lines generalizing previous with
  | nil => exact List.nil_subset _
  | cons line lines ih =>
    have hs : line :: lines ⊆ line :: unrepeated (some line) lines :=
      List.cons_subset.mpr ⟨List.mem_cons_self, ih (some line)⟩
    rw [unrepeated_cons]
    split
    · next h =>
      rw [h]
      exact hs
    · next h => exact List.Subset.trans hs (List.subset_append_right _ _)

end SexprCalc.Session
