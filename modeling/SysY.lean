import SysY.Main
import SysY.Proofs.Cells
import SysY.Proofs.Dominance
import SysY.Proofs.Grammar.Complete
import SysY.Proofs.Grammar.Spans
import SysY.Proofs.Literal
import SysY.Proofs.Loops
import SysY.Proofs.Lower.ConstantCode
import SysY.Proofs.Lower.Meaning
import SysY.Proofs.Lower.Subscripts
import SysY.Proofs.Rename.Program
import SysY.Proofs.Resolve
import SysY.Proofs.Rv32.Abi
import SysY.Proofs.Rv32.FrameSize
import SysY.Proofs.Rv32.StackObjects
import SysY.Proofs.Rv32.Symbols
import SysY.Proofs.Scan.Print
import SysY.Proofs.Scan.Unreadable
import SysY.Proofs.ScopeWalk
import SysY.Proofs.Shapes
import SysY.Proofs.Spilling
import SysY.Proofs.Traces
import SysY.Proofs.Typing.Decide
