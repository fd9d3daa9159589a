/-!
# Names that others rely on

The version, the names of files and variables around the program, and the field
names by which its records can be searched.
-/

set_option autoImplicit false

namespace LinkClosure.Vocabulary

def version : String := "0.1.0"

def logVariable : String := "LINKVARS_LOG"

def defaultLogFilter : String := "linkvars=info"

def projectFile : String := "linkvars.toml"

/-- Node count, edge count, digest, time, reached, hit rate, savings. -/
def metrics : List String :=
  ["graph_node_count", "graph_edge_count", "signature_hash", "closure_compute_time",
    "closure_reached", "cache_hit_rate", "closure_savings"]

end LinkClosure.Vocabulary
