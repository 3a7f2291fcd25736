import RippleCarry.Main
import RippleCarry.Workbench
import RippleCarry.Proofs.StraightLine
import RippleCarry.Proofs.Collisions
import RippleCarry.Proofs.Solution
import RippleCarry.Proofs.Paths
import RippleCarry.Proofs.Integers
import RippleCarry.Proofs.Batches
import RippleCarry.Proofs.Drafting
import RippleCarry.Proofs.Sessions
import RippleCarry.Proofs.VerilogWiring
import RippleCarry.Proofs.Footprint
import RippleCarry.Proofs.CommandRuns
import RippleCarry.Proofs.JsonModel
import RippleCarry.Proofs.CriticalPath
import RippleCarry.Proofs.Renaming
import RippleCarry.Proofs.Truncation
import RippleCarry.Proofs.NumeralPairs
import RippleCarry.Proofs.Extension
import RippleCarry.Proofs.Packing
import RippleCarry.Proofs.Carries
