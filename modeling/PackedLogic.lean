import PackedLogic.Config.Reader
import PackedLogic.Machine.Build
import PackedLogic.Fault
import PackedLogic.Proofs.Checker
import PackedLogic.Proofs.PackedRun
import PackedLogic.Proofs.Settling
import PackedLogic.Proofs.BankHistory
import PackedLogic.Proofs.Reexposure
import PackedLogic.Proofs.Dependencies
import PackedLogic.Proofs.Wiring
import PackedLogic.Proofs.Lifetimes
import PackedLogic.Proofs.Forgetting
import PackedLogic.Proofs.RearrangedBuild
import PackedLogic.Proofs.SharedNames
import PackedLogic.Proofs.PoolHistory
import PackedLogic.Proofs.WholeBlocks
import PackedLogic.Proofs.FreshGates
import PackedLogic.Proofs.PoolEvaluation
import PackedLogic.Proofs.Siblings
import PackedLogic.Proofs.BridgeViews
import PackedLogic.Proofs.IndependentSockets
import PackedLogic.Proofs.Propagation
import PackedLogic.Proofs.Registration
import PackedLogic.Proofs.FirstFit
import PackedLogic.Proofs.DensePacking
import PackedLogic.Proofs.Redeclarations
import PackedLogic.Proofs.Masks
import PackedLogic.Proofs.ConfigTexts
import PackedLogic.Proofs.CountedRun
import PackedLogic.Proofs.TreeShape
