import ModelGraph.Main
import ModelGraph.Graph.Edit
import ModelGraph.Json.Printer
import ModelGraph.Proofs.Descriptor.Partition
import ModelGraph.Proofs.Resolution.Cycle
import ModelGraph.Proofs.Resolution.Expansion
import ModelGraph.Proofs.Resolution.Journal
import ModelGraph.Store.Memory
import ModelGraph.Tree.Merge
import ModelGraph.Tree.Trim
import ModelGraph.Proofs.Descriptor.Contents
import ModelGraph.Proofs.Descriptor.Acceptance
import ModelGraph.Proofs.Resolution.Failure
import ModelGraph.Proofs.Resolution.Repetition
import ModelGraph.Proofs.Descriptor.Connections
import ModelGraph.Proofs.Descriptor.Staging
import ModelGraph.Proofs.Graph.RoundTrip
import ModelGraph.Proofs.Descriptor.Reordering
import ModelGraph.Proofs.Resolution.Prefix
import ModelGraph.Proofs.Resolution.History
import ModelGraph.Proofs.Resolution.Actuators
import ModelGraph.Proofs.Graph.Representation
import ModelGraph.Proofs.Descriptor.Import
import ModelGraph.Proofs.Descriptor.Files
import ModelGraph.Proofs.Store.File
import ModelGraph.Proofs.Json.RoundTrip
import ModelGraph.Proofs.Tree.NormalForm
import ModelGraph.Proofs.OrderedMap.Refinement
import ModelGraph.Proofs.Resolution.Termination
import ModelGraph.Proofs.Tree.Merge
import ModelGraph.Proofs.Tree.Steps
import ModelGraph.Proofs.Graph.Version
import ModelGraph.Proofs.Descriptor.Normalization
import ModelGraph.Proofs.Descriptor.Properties
import ModelGraph.Proofs.Resolution.Spelling
import ModelGraph.Proofs.Graph.Merging
import ModelGraph.Proofs.MotionTask.Store
import ModelGraph.Proofs.Graph.PortConfig
