import Declass.Main
import Declass.Proofs.Dump.Attribution
import Declass.Proofs.Output.Declared
import Declass.Proofs.Outline.Masked
import Declass.Proofs.Outline.Variables
import Declass.Proofs.Output.Brackets
import Declass.Proofs.Output.Layout
import Declass.Proofs.Lowering.Statements
import Declass.Proofs.Dump.Classless
import Declass.Proofs.Dump.Origins
import Declass.Proofs.Output.Prototypes
import Declass.Proofs.Program.Additive
import Declass.Proofs.Program.Collision
import Declass.Proofs.Run.Failure
import Declass.Proofs.Run.Exhaustion
import Declass.Proofs.Program.Overloads
import Declass.Proofs.Lowering.Objects
import Declass.Proofs.Lowering.Qualified
import Declass.Proofs.Lowering.Shadowing
import Declass.Proofs.Device.Lifecycle
import Declass.Proofs.Lowering.Split
import Declass.Proofs.Lowering.Walk
import Declass.Proofs.Token.Bytes
import Declass.Proofs.Token.Partners
import Declass.Proofs.Type.CType
import Declass.Proofs.Dump.Colours
