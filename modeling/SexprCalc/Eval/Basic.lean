import SexprCalc.Eval.Form
import SexprCalc.Tree.Draft
import SexprCalc.Value.OfTree

/-! Evaluation. The cells of a list are evaluated first, all of them and in order; leaves evaluate
to themselves. Only a text that is no tree has no value: a failed computation is a value. -/

namespace SexprCalc

def Value.eval : Value → Value :=
  fold number failure symbol fun cells => (Form.ofCells cells).value

theorem Value.eval_list (cells : List Value) :
    eval (list cells) = (Form.ofCells (cells.map eval)).value :=
  fold_list ..

theorem Value.eval_list_singleton (v : Value) : eval (list [v]) = v.eval := by
  rw [eval_list, List.map_singleton]
  cases v.eval <;> rfl

def evaluate (text : String) : Except ReadError Value :=
  (Tree.read text).map fun t => (Value.ofTree t).eval

end SexprCalc
