import LinkClosure.Level

/-!
# Best paths that carry a state

A pass gives every edge a weight and remembers a state along the best path to a
node. An edge that the state refuses is not followed. Alternatives of equal
length are merged until their node is settled; then its outgoing edges are
walked, from the highest target to the lowest. Nodes settle in the order of
their distance and, at equal distance, of their position.

Every round settles one node, so as many rounds as nodes are enough.
-/

set_option autoImplicit false

namespace LinkClosure

/-- The outgoing edges of each node, by increasing target. -/
abbrev Adjacency (n : Nat) := Vector (List (Fin n × Level)) n

namespace Distance

def top : Nat := 18446744073709551615

/-- A sum that would not fit is the largest distance. -/
def add (d e : Nat) : Nat := Nat.min (d + e) top

end Distance

structure Pass (σ : Type) where
  initial : σ
  weight : Level → Nat
  extend : σ → Level → Option σ
  merge : σ → σ → σ

structure NodeLabel (σ : Type) where
  distance : Nat
  state : σ
  settled : Bool

structure Search (σ : Type) (n : Nat) where
  labels : Vector (Option (NodeLabel σ)) n
  refused : List (Fin n × Fin n)

namespace Search

variable {σ : Type} {n : Nat}

def start (p : Pass σ) (i : Fin n) : Search σ n :=
  ⟨(Vector.replicate n none).set i (some ⟨0, p.initial, false⟩), []⟩

def isSettled (s : Search σ n) (v : Fin n) : Bool := s.labels[v].any NodeLabel.settled

def setLabel (s : Search σ n) (v : Fin n) (l : NodeLabel σ) : Search σ n :=
  { s with labels := s.labels.set v (some l) }

def refuse (s : Search σ n) (u v : Fin n) : Search σ n :=
  { s with refused := s.refused ++ [(u, v)] }

/-- Of two reached nodes that are not settled, the one to settle first. -/
def nearer (best : Option (Fin n × NodeLabel σ)) (c : Fin n × NodeLabel σ) :
    Option (Fin n × NodeLabel σ) :=
  match best with
  | none => some c
  | some b => if c.2.distance < b.2.distance then some c else some b

def nearest? (s : Search σ n) : Option (Fin n × NodeLabel σ) :=
  (List.finRange n).foldl (fun best i =>
    match s.labels[i] with
    | some l => if l.settled then best else nearer best (i, l)
    | none => best) none

def offer (p : Pass σ) (v : Fin n) (d : Nat) (x : σ) (s : Search σ n) : Search σ n :=
  match s.labels[v] with
  | none => s.setLabel v ⟨d, x, false⟩
  | some l =>
    if d = l.distance then s.setLabel v { l with state := p.merge l.state x }
    else if d < l.distance then s.setLabel v ⟨d, x, false⟩
    else s

def walk (p : Pass σ) (limit : Nat) (u : Fin n) (l : NodeLabel σ) (s : Search σ n)
    (e : Fin n × Level) : Search σ n :=
  if limit < p.weight e.2 || s.isSettled e.1 then s
  else
    match p.extend l.state e.2 with
    | none => s.refuse u e.1
    | some x => s.offer p e.1 (Distance.add l.distance (p.weight e.2)) x

def settle (p : Pass σ) (limit : Nat) (edges : Adjacency n) (s : Search σ n) : Search σ n :=
  match s.nearest? with
  | none => s
  | some (u, l) =>
    edges[u].reverse.foldl (walk p limit u l) (s.setLabel u { l with settled := true })

def rounds (p : Pass σ) (limit : Nat) (edges : Adjacency n) : Nat → Search σ n → Search σ n
  | 0, s => s
  | k + 1, s => rounds p limit edges k (s.settle p limit edges)

def run (p : Pass σ) (limit : Nat) (edges : Adjacency n) (i : Fin n) : Search σ n :=
  rounds p limit edges n (start p i)

def best? (s : Search σ n) (v : Fin n) : Option (Nat × σ) :=
  s.labels[v].map fun l => (l.distance, l.state)

end Search

end LinkClosure
