import SexprCalc.Text.Numeral
import SexprCalc.Value.Basic

namespace SexprCalc.Value

open Text

def pieces : Value → List String :=
  fold (fun n => [String.ofList (Numeral.write n)]) (fun m => ["Error: ", m]) (fun s => [s])
    fun parts => "(" :: [" "].intercalate parts ++ [")"]

def render (v : Value) : String :=
  String.join v.pieces

def linePieces (v : Value) : List String :=
  v.pieces ++ ["\n"]

theorem pieces_list (cells : List Value) :
    pieces (.list cells) = "(" :: [" "].intercalate (cells.map pieces) ++ [")"] :=
  fold_list ..

theorem toList_render (v : Value) : v.render.toList = v.pieces.flatMap String.toList :=
  String.toList_join

end SexprCalc.Value
