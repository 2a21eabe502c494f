import BlockWalk.Cid.Embedded
import BlockWalk.Main
import BlockWalk.Proofs.Appending
import BlockWalk.Proofs.AskedTargets
import BlockWalk.Proofs.BinaryForm
import BlockWalk.Proofs.BinaryReading
import BlockWalk.Proofs.CodecIndependence
import BlockWalk.Proofs.Consuming
import BlockWalk.Proofs.Correspondence
import BlockWalk.Proofs.DepthFirst
import BlockWalk.Proofs.DocumentForms
import BlockWalk.Proofs.DrainEnds
import BlockWalk.Proofs.EncodingOrder
import BlockWalk.Proofs.FileTrees
import BlockWalk.Proofs.Grammar
import BlockWalk.Proofs.Identifiers
import BlockWalk.Proofs.ImportedBlocks
import BlockWalk.Proofs.Importing
import BlockWalk.Proofs.InStep
import BlockWalk.Proofs.Inlining
import BlockWalk.Proofs.Invariants
import BlockWalk.Proofs.JsonNodes
import BlockWalk.Proofs.JsonText
import BlockWalk.Proofs.LinkClosure
import BlockWalk.Proofs.NestingLimit
import BlockWalk.Proofs.Places
import BlockWalk.Proofs.PrettyText
import BlockWalk.Proofs.PrintedNodes
import BlockWalk.Proofs.Provenance
import BlockWalk.Proofs.PullEnds
import BlockWalk.Proofs.Pulls
import BlockWalk.Proofs.Relinking
import BlockWalk.Proofs.Replay
import BlockWalk.Proofs.Runs
import BlockWalk.Proofs.StoreHistories
import BlockWalk.Proofs.StoredFiles
import BlockWalk.Proofs.Stores
import BlockWalk.Proofs.Symbols
import BlockWalk.Proofs.UnreachedLimit
import BlockWalk.Proofs.Unrolling
import BlockWalk.Store.FileTree
import BlockWalk.Store.Memory
import BlockWalk.Proofs.PrefixFree
import BlockWalk.Proofs.SelectedSteps
import BlockWalk.Proofs.EditedFolders
import BlockWalk.Proofs.PrintedSelections
