import SexprCalc.Fault

namespace SexprCalc

inductive Value
  | number (n : Int64)
  | failure (message : String)
  | symbol (name : String)
  | list (cells : List Value)

def Fault.value (f : Fault) : Value :=
  .failure f.message

namespace Value

@[elab_as_elim, induction_eliminator]
theorem induction {motive : Value → Prop} (number : ∀ n, motive (number n))
    (failure : ∀ message, motive (failure message)) (symbol : ∀ name, motive (symbol name))
    (list : ∀ cells, (∀ v ∈ cells, motive v) → motive (list cells)) (v : Value) : motive v := by
  refine Value.rec (motive_1 := motive) (motive_2 := fun vs => ∀ v ∈ vs, motive v)
    number failure symbol list ?_ ?_ v
  · simp
  · intro v vs hv hvs w hw
    rcases List.mem_cons.mp hw with rfl | hw
    · exact hv
    · exact hvs w hw

section

variable {α : Type} (number : Int64 → α) (failure symbol : String → α) (list : List α → α)

mutual

def fold : Value → α
  | .number n => number n
  | .failure m => failure m
  | .symbol s => symbol s
  | .list cells => list (foldEach [] cells)

def foldEach (done : List α) : List Value → List α
  | [] => done.reverse
  | v :: vs => foldEach (fold v :: done) vs

end

theorem foldEach_eq (done : List α) (vs : List Value) :
    foldEach number failure symbol list done vs =
      done.reverse ++ vs.map (fold number failure symbol list) := by
  induction vs generalizing done with
  | nil => simp [foldEach]
  | cons v vs ih => simp [foldEach, ih]

theorem fold_list (cells : List Value) :
    fold number failure symbol list (.list cells) =
      list (cells.map (fold number failure symbol list)) := by
  simp [fold, foldEach_eq]

end

def cells : Value → List Value
  | list cells => cells
  | _ => []

def number? : Value → Option Int64
  | number n => some n
  | _ => none

def failure? : Value → Option String
  | failure message => some message
  | _ => none

def isFailure (v : Value) : Bool :=
  v.failure?.isSome

mutual

def same : Value → Value → Bool
  | number m, number n => m = n
  | failure m, failure n => m = n
  | symbol m, symbol n => m = n
  | list vs, list ws => sameEach vs ws
  | _, _ => false

def sameEach : List Value → List Value → Bool
  | [], [] => true
  | v :: vs, w :: ws => same v w && sameEach vs ws
  | _, _ => false

end

theorem same_iff (v w : Value) : same v w = true ↔ v = w := by
  induction v generalizing w with
  | number n => cases w <;> simp [same]
  | failure m => cases w <;> simp [same]
  | symbol s => cases w <;> simp [same]
  | list vs ih =>
    cases w with
    | list ws =>
      rw [same, list.injEq]
      induction vs generalizing ws with
      | nil => cases ws <;> simp [sameEach]
      | cons v vs ihs =>
        have hv := ih v List.mem_cons_self
        have hvs := ihs fun u hu => ih u (List.mem_cons_of_mem v hu)
        cases ws with
        | nil => simp [sameEach]
        | cons w ws => simp [sameEach, hv, hvs]
    | number n => simp [same]
    | failure m => simp [same]
    | symbol s => simp [same]

instance : DecidableEq Value := fun v w => decidable_of_iff (same v w = true) (same_iff v w)

end Value

end SexprCalc
