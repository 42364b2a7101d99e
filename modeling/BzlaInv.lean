import BzlaInv.Bv
import BzlaInv.Domain
import BzlaInv.Oblivious
import BzlaInv.Const.Basic
import BzlaInv.Const.Mul
import BzlaInv.Const.Shift
import BzlaInv.Shift
import BzlaInv.Gen.Free
import BzlaInv.Gen.Bounds
import BzlaInv.Gen.Run
import BzlaInv.Const.Urem
import BzlaInv.Const.Exact
import BzlaInv.Factor
import BzlaInv.Text
import BzlaInv.Print
import BzlaInv.Gamma
