import SexprCalc.Main
import SexprCalc.Proofs.Completion
import SexprCalc.Proofs.Conservation
import SexprCalc.Proofs.Division
import SexprCalc.Proofs.Enclosing
import SexprCalc.Proofs.Events
import SexprCalc.Proofs.Juxtaposition
import SexprCalc.Proofs.Numerals
import SexprCalc.Proofs.ReadingStack
import SexprCalc.Proofs.Retention
import SexprCalc.Proofs.Shape
import SexprCalc.Proofs.Stripping
import SexprCalc.Proofs.Surgery
import SexprCalc.Proofs.Wrapping
import SexprCalc.Tree.Outline
import SexprCalc.Workbench
