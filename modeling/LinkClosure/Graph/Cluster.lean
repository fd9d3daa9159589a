import LinkClosure.Graph

/-!
# Clusters of statically assigned variables

Variables that static assignment makes the same object form a cluster. Return
values are in none; the last one gets a cluster of its own on top, with the
members of every cluster it is statically assigned to.

Clusters are found by labels: each variable starts with its own, and an edge
gives all variables labelled like its source the label of its target.
-/

set_option autoImplicit false

namespace LinkClosure

abbrev Cluster := List Variable

structure Clusters where
  clusters : List Cluster
  returnValue : Option Variable
  returnValueCluster : Option Cluster

namespace Graph

def isStaticEdge (e : Variable × Level) : Bool := e.2 == .staticallyAssigned

def staticNeighbours (g : Graph) (v : Variable) : List Variable :=
  ((g.edges v).entries.filter isStaticEdge).map Prod.fst

def staticEdges (g : Graph) : List (Variable × Variable) :=
  (g.order.filter (!·.isReturnValue)).flatMap fun v => (g.staticNeighbours v).map fun w => (v, w)

abbrev Labelling := SortedMap Variable Nat

def ownLabels (g : Graph) : Labelling := .ofList g.order.zipIdx

def joinLabels (labels : Labelling) (e : Variable × Variable) : Labelling :=
  match labels.get? e.1, labels.get? e.2 with
  | some a, some b => labels.mapValues fun c => if c = a then b else c
  | _, _ => labels

def clusterLabels (g : Graph) : Labelling := g.staticEdges.foldl joinLabels g.ownLabels

/-- Put a variable into the cluster with its label, or into a new one at the end. -/
def groupInto (label : Option Nat) (v : Variable) :
    List (Option Nat × Cluster) → List (Option Nat × Cluster)
  | [] => [(label, [v])]
  | (l, c) :: rest =>
    if l = label then (l, c ++ [v]) :: rest else (l, c) :: groupInto label v rest

def clusterGroups (g : Graph) : List (Option Nat × Cluster) :=
  let labels := g.clusterLabels
  (g.order.filter (!·.isReturnValue)).foldl (fun groups v => groupInto (labels.get? v) v groups) []

def addMissing (c : Cluster) (v : Variable) : Cluster := if v ∈ c then c else c ++ [v]

/-- A return value first, then the clusters it is statically assigned to. -/
def clusterOfReturnValue (g : Graph) (clusters : List Cluster) (r : Variable) : Cluster :=
  ((g.staticNeighbours r).flatMap fun v =>
    (clusters.find? fun c => v ∈ c).getD []).foldl addMissing [r]

def clusters (g : Graph) : Clusters :=
  let clusters := g.clusterGroups.map Prod.snd
  let returnValue := (g.order.filter Variable.isReturnValue).getLast?
  ⟨clusters, returnValue, returnValue.map (g.clusterOfReturnValue clusters)⟩

end Graph

end LinkClosure
