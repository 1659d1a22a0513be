import OpFusion.Graph.Builder
import OpFusion.Memo.Exploration
import OpFusion.Plan.Lowering
import OpFusion.Proofs.Dag.Reachability
import OpFusion.Proofs.Graph.WellFormed
import OpFusion.Proofs.Graph.Typed
import OpFusion.Proofs.Graph.Parents
import OpFusion.Proofs.Graph.Requests
import OpFusion.Proofs.Graph.Growth
import OpFusion.Proofs.Graph.Order
import OpFusion.Proofs.Graph.Elementwise
import OpFusion.Proofs.InputOrder
import OpFusion.Proofs.Memo.Entries
import OpFusion.Proofs.Memo.Positions
import OpFusion.Proofs.Memo.RegionRule
import OpFusion.Proofs.Memo.Best
import OpFusion.Proofs.Memo.Chain
import OpFusion.Proofs.Memo.Product
import OpFusion.Proofs.Memo.Reexploration
import OpFusion.Proofs.Memo.Walk
import OpFusion.Proofs.Memo.Threshold
import OpFusion.Proofs.Memo.History
import OpFusion.Proofs.Memo.Multimap
import OpFusion.Proofs.Memo.Growth
import OpFusion.Proofs.Kernel.Table
import OpFusion.Proofs.Kernel.Body
import OpFusion.Proofs.Plan.Layout
import OpFusion.Proofs.Plan.Boundary
import OpFusion.Proofs.Plan.Accumulation
import OpFusion.Proofs.Plan.Refusal
import OpFusion.Proofs.Plan.Mismatch
import OpFusion.Proofs.Plan.Closed
import OpFusion.Proofs.Plan.Failure
import OpFusion.Proofs.Plan.ProductOutcome
import OpFusion.Proofs.Plan.RowLowering
import OpFusion.Proofs.Plan.Inputs
import OpFusion.Proofs.Plan.RowInputs
import OpFusion.Proofs.Plan.ProductInputs
import OpFusion.Proofs.Graph.Extents
import OpFusion.Proofs.Plan.MainExtents
import OpFusion.Proofs.Kernel.Substitution
import OpFusion.Proofs.Plan.CompiledLiterals
import OpFusion.Proofs.Kernel.Contents
import OpFusion.Proofs.Plan.LoweredNodes
import OpFusion.Proofs.Plan.ProductOperands
import OpFusion.Proofs.Plan.ProductAccumulation
import OpFusion.Proofs.Kernel.Typing
import OpFusion.Proofs.Memo.RowRegions
import OpFusion.Proofs.Plan.RowNodes
import OpFusion.Proofs.Plan.RowTyping
import OpFusion.Proofs.Plan.RowOperands
import OpFusion.Proofs.Plan.Indexing
import OpFusion.Proofs.Plan.TemporaryRows
import OpFusion.Proofs.Plan.Growth
import OpFusion.Proofs.Plan.Dependence
import OpFusion.Proofs.Plan.RowChain
import OpFusion.Proofs.Plan.RowChainPlan
import OpFusion.Proofs.Plan.ScalarNodes
import OpFusion.Proofs.Plan.Selection
import OpFusion.Proofs.Dag.Address
import OpFusion.Proofs.Dag.Outline
import OpFusion.Proofs.Kernel.Outline
import OpFusion.Proofs.Graph.Outline
