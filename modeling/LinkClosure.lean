import LinkClosure.Exchange
import LinkClosure.Neighbourhood
import LinkClosure.Session
import LinkClosure.Settings.Layers
import LinkClosure.Proofs.Merging
import LinkClosure.Proofs.Search.Join
import LinkClosure.Proofs.Search.Run
import LinkClosure.Proofs.Graph.Built
import LinkClosure.Proofs.Graph.Rows
import LinkClosure.Proofs.Graph.Paths
import LinkClosure.Proofs.Search.Bellman
import LinkClosure.Proofs.Search.Labels
import LinkClosure.Proofs.SourceCoordinates
import LinkClosure.Proofs.Search.Limits
import LinkClosure.Proofs.Search.Visits
import LinkClosure.Proofs.Search.Kinds
import LinkClosure.Proofs.Floors
import LinkClosure.Proofs.ComposedPaths
import LinkClosure.Proofs.Graph.Outline
import LinkClosure.Proofs.Engine.Tables
import LinkClosure.Proofs.Engine.Transparency
import LinkClosure.Proofs.Search.Paths
import LinkClosure.Proofs.Delays
import LinkClosure.Proofs.Reversal
import LinkClosure.Proofs.InsertionOrder
import LinkClosure.Proofs.PhantomDelays
import LinkClosure.Proofs.Search.Relabelling
import LinkClosure.Proofs.Renaming
import LinkClosure.Proofs.Siblings
import LinkClosure.Proofs.Lifecycle
import LinkClosure.Proofs.Graph.TwoWay
import LinkClosure.Proofs.Symmetry
import LinkClosure.Proofs.Observers
import LinkClosure.Proofs.Shapes
import LinkClosure.Proofs.Neighbourhoods
import LinkClosure.Proofs.Coordinates
import LinkClosure.Proofs.WellFormedRows
import LinkClosure.Proofs.Graph.Clusters
import LinkClosure.Proofs.ClusterRows
import LinkClosure.Proofs.Text.Separated
import LinkClosure.Proofs.Codes
import LinkClosure.Proofs.Signatures
import LinkClosure.Proofs.Composition
import LinkClosure.Proofs.CheckedLinkages
import LinkClosure.Proofs.Lines
import LinkClosure.Proofs.BothEnds
import LinkClosure.Proofs.Partition
import LinkClosure.Proofs.SingleLinks
import LinkClosure.Proofs.Reindexing
import LinkClosure.Proofs.SelectionOrder
import LinkClosure.Proofs.NestedAreas
import LinkClosure.Proofs.Nesting
import LinkClosure.Proofs.Constructions
import LinkClosure.Proofs.Toml.Numerals
import LinkClosure.Proofs.Settings.Layering
import LinkClosure.Proofs.Toml.PlainText
import LinkClosure.Proofs.Settings.RoundTrip
import LinkClosure.Proofs.KindsByLength
import LinkClosure.Proofs.Overlap
import LinkClosure.Proofs.Engine.Accounts
