import LinkClosure.Proofs.Engine.Tables
import LinkClosure.Session

/-!
# What an engine does not change

A ledger knows the graphs of a session and the graphs that its closures were made
of, and nothing of an engine: it answers a question about a closure by a search
on that graph alone. A session gives the same answers, with and without a cache,
at any capacity, eager or not, and whatever happens to the cache meanwhile.
-/

set_option autoImplicit false

namespace LinkClosure

structure Ledger where
  graph : String → Graph
  closed : String → Option Graph

namespace Ledger

def empty : Ledger := ⟨fun _ => .empty, fun _ => none⟩

def setGraph (name : String) (g : Graph) (l : Ledger) : Ledger :=
  { l with graph := fun n => if n = name then g else l.graph n }

def setClosed (closure : String) (g : Graph) (l : Ledger) : Ledger :=
  { l with closed := fun n => if n = closure then some g else l.closed n }

def record (l : Ledger) : Request → Ledger
  | .add name v edges => l.setGraph name (Session.addNodes (l.graph name) [(v, edges)]).1
  | .addAll name nodes => l.setGraph name (Session.addNodes (l.graph name) nodes).1
  | .clusters name => l.setGraph name (l.graph name).freeze
  | .close name closure =>
    (l.setGraph name (l.graph name).freeze).setClosed closure (l.graph name).freeze
  | _ => l

def rowAnswer : Except GraphError (SortedMap Variable Level) → Answer
  | .ok row => .row row
  | .error err => .failure err

def answer? (l : Ledger) : Request → Option Answer
  | .links closure start floor =>
    some ((l.closed closure).elim .unknownClosure fun g =>
      rowAnswer ((Frame.ofGraph g).links start floor))
  | .linksOfAll closure =>
    some ((l.closed closure).elim .unknownClosure fun g => .nodes (Frame.ofGraph g).linksOfAll)
  | _ => none

/-- Each answer of a run, if it is about a closure, is the one of the ledger at that time. -/
def Explains : Ledger → List Request → List Answer → Prop
  | _, [], [] => True
  | l, r :: rs, a :: as => (∀ b, l.answer? r = some b → a = b) ∧ (l.record r).Explains rs as
  | _, _, _ => False

end Ledger

namespace Session

/-- A run in which anything may happen to the cache before each request. -/
def runAmid (s : Session) : List ((ShapeCache → ShapeCache) × Request) → List Answer
  | [] => []
  | (change, r) :: rest =>
    let (s, a) := (s.withEngine (s.engine.mapCache change)).perform r
    a :: s.runAmid rest

/-- A session has the graphs of the ledger, and its engine serves the closures. -/
structure Mirrors (s : Session) (l : Ledger) : Prop where
  sound : s.engine.Sound
  graph : ∀ name, s.graph name = l.graph name
  closed : ∀ name, (s.closures.get? name).map Closure.frame = (l.closed name).map Frame.ofGraph
  serves : ∀ name c, s.closures.get? name = some c → s.engine.Serves c.table c.frame.shape

variable {s : Session} {l : Ledger}

theorem mirrors_start (settings : Option Settings) : (start settings).Mirrors .empty := by
  have htables : (start settings).engine.tables = #[] := by cases settings <;> rfl
  have hgraphs : (start settings).graphs = .empty := by cases settings <;> rfl
  have hclosures : (start settings).closures = .empty := by cases settings <;> rfl
  constructor
  · intro k t hk
    rw [htables] at hk
    cases hk
  · intro name
    rw [graph, hgraphs]
    rfl
  · intro name
    rw [hclosures]
    rfl
  · intro name c hc
    rw [hclosures] at hc
    cases hc

theorem Mirrors.withEngine (h : s.Mirrors l) {e : Engine} (he : s.engine.Follows e) :
    (s.withEngine e).Mirrors l where
  sound := he.sound h.sound
  graph := h.graph
  closed := h.closed
  serves name c hc := he.serves _ _ (h.serves name c hc)

theorem Mirrors.mapCache (h : s.Mirrors l) (change : ShapeCache → ShapeCache) :
    (s.withEngine (s.engine.mapCache change)).Mirrors l :=
  h.withEngine (Engine.follows_of_tables_eq rfl)

theorem withEngine_mapCache_id (s : Session) : s.withEngine (s.engine.mapCache id) = s := by
  simp [withEngine, Engine.mapCache]

theorem graph_setGraph (s : Session) (name : String) (g : Graph) (n : String) :
    (s.setGraph name g).graph n = if n = name then g else s.graph n := by
  simp only [graph, setGraph, SortedMap.get?_insert]
  split_ifs <;> rfl

theorem Mirrors.setGraph (h : s.Mirrors l) (name : String) (g : Graph) :
    (s.setGraph name g).Mirrors (l.setGraph name g) where
  sound := h.sound
  graph n := by
    rw [graph_setGraph, Ledger.setGraph, h.graph]
  closed := h.closed
  serves := h.serves

theorem Mirrors.keepGraph (h : s.Mirrors l) (name : String) :
    (s.setGraph name (s.graph name)).Mirrors l where
  sound := h.sound
  graph n := by
    rw [graph_setGraph]
    split_ifs with hn
    · rw [hn, h.graph]
    · exact h.graph n
  closed := h.closed
  serves := h.serves

theorem Mirrors.close (h : s.Mirrors l) (name closure : String) :
    (s.perform (.close name closure)).1.Mirrors (l.record (.close name closure)) := by
  obtain ⟨hfollows, hframe, hserves⟩ := Engine.close_spec (l.graph name).freeze s.engine
  simp only [perform, h.graph name, Ledger.record]
  have hgraph := (h.setGraph name (l.graph name).freeze).graph
  constructor
  · exact hfollows.sound h.sound
  · exact hgraph
  · intro n
    simp only [SortedMap.get?_insert, Ledger.setClosed]
    split_ifs
    · exact congrArg some hframe
    · exact h.closed n
  · intro n c hc
    simp only [SortedMap.get?_insert] at hc
    split_ifs at hc
    · rw [← Option.some.inj hc, hframe]
      exact hserves
    · exact hfollows.serves _ _ (h.serves n c hc)

theorem Mirrors.closure_cases (h : s.Mirrors l) (name : String) :
    (s.closures.get? name = none ∧ l.closed name = none) ∨
      ∃ c g, s.closures.get? name = some c ∧ l.closed name = some g ∧ c.frame = .ofGraph g ∧
        s.engine.Serves c.table c.frame.shape := by
  have hclosed := h.closed name
  cases hc : s.closures.get? name with
  | none =>
    rw [hc, Option.map_none, eq_comm, Option.map_eq_none_iff] at hclosed
    exact .inl ⟨rfl, hclosed⟩
  | some c =>
    rw [hc, Option.map_some, eq_comm, Option.map_eq_some_iff] at hclosed
    obtain ⟨g, hg, hframe⟩ := hclosed
    exact .inr ⟨c, g, rfl, hg, hframe.symm, h.serves name c hc⟩

theorem Mirrors.links (h : s.Mirrors l) (closure : String) (start : Variable)
    (floor : Option Level) :
    (s.perform (.links closure start floor)).1.Mirrors l ∧
      l.answer? (.links closure start floor) = some (s.perform (.links closure start floor)).2 := by
  rcases h.closure_cases closure with ⟨hc, hl⟩ | ⟨c, g, hc, hl, hframe, hserves⟩
  · simp only [perform, onClosure, hc, Ledger.answer?, hl, Option.elim_none]
    exact ⟨h, trivial⟩
  · obtain ⟨hfollows, hlinks⟩ := Engine.links_spec h.sound hserves start floor
    simp only [perform, onClosure, hc, Ledger.answer?, hl, Option.elim_some, hlinks, hframe]
    exact ⟨h.withEngine hfollows, rfl⟩

theorem Mirrors.linksOfAll (h : s.Mirrors l) (closure : String) :
    (s.perform (.linksOfAll closure)).1.Mirrors l ∧
      l.answer? (.linksOfAll closure) = some (s.perform (.linksOfAll closure)).2 := by
  rcases h.closure_cases closure with ⟨hc, hl⟩ | ⟨c, g, hc, hl, hframe, hserves⟩
  · simp only [perform, onClosure, hc, Ledger.answer?, hl, Option.elim_none]
    exact ⟨h, trivial⟩
  · obtain ⟨hfollows, hrows⟩ := Engine.linksOfAll_spec h.sound hserves
    simp only [perform, onClosure, hc, Ledger.answer?, hl, Option.elim_some, hrows, hframe]
    exact ⟨h.withEngine hfollows, trivial⟩

theorem fst_onClosure {name : String} {f : Closure → Session × Answer}
    (hf : ∀ c, (f c).1 = s) : (s.onClosure name f).1 = s := by
  unfold onClosure
  split
  · exact hf _
  · rfl

theorem Mirrors.onClosure (h : s.Mirrors l) (name : String) {f : Closure → Session × Answer}
    (hf : ∀ c, (f c).1 = s) : (s.onClosure name f).1.Mirrors l := by
  rwa [fst_onClosure hf]

/-- One request later the session still mirrors the ledger. -/
theorem Mirrors.perform (h : s.Mirrors l) (r : Request) :
    (s.perform r).1.Mirrors (l.record r) := by
  have htables : ∀ e : Engine, e.tables = s.engine.tables → (s.withEngine e).Mirrors l :=
    fun e he => h.withEngine (Engine.follows_of_tables_eq he)
  cases r with
  | add name v edges =>
    simp only [Session.perform, addTo, Ledger.record, ← h.graph name]
    exact h.setGraph name _
  | addAll name nodes =>
    simp only [Session.perform, addTo, Ledger.record, ← h.graph name]
    exact h.setGraph name _
  | clusters name =>
    simp only [Session.perform, Ledger.record, ← h.graph name]
    exact h.setGraph name _
  | info name => exact h.keepGraph name
  | contains name v => exact h.keepGraph name
  | visit name => exact h.keepGraph name
  | close name closure => exact h.close name closure
  | links closure start floor => exact (h.links closure start floor).1
  | linksOfAll closure => exact (h.linksOfAll closure).1
  | variableAt closure i => exact h.onClosure closure fun _ => rfl
  | savings closure => exact h.onClosure closure fun _ => rfl
  | shapeDigest closure => exact h.onClosure closure fun _ => rfl
  | sameDigest closure other =>
    exact h.onClosure closure fun _ => fst_onClosure fun _ => rfl
  | cacheCounters => exact htables _ rfl
  | invalidate => exact htables _ rfl
  | discard d => exact htables _ rfl
  | report =>
    refine htables _ ?_
    unfold Engine.report
    split <;> rfl
  | engine => exact h
  | trace => exact htables _ rfl

theorem Mirrors.answer (h : s.Mirrors l) {r : Request} {b : Answer} (hb : l.answer? r = some b) :
    (s.perform r).2 = b := by
  cases r with
  | links closure start floor =>
    exact Option.some.inj ((h.links closure start floor).2.symm.trans hb)
  | linksOfAll closure => exact Option.some.inj ((h.linksOfAll closure).2.symm.trans hb)
  | _ => cases hb

theorem Mirrors.explains (h : s.Mirrors l) (steps : List ((ShapeCache → ShapeCache) × Request)) :
    l.Explains (steps.map Prod.snd) (s.runAmid steps) := by
  induction steps generalizing s l with
  | nil => trivial
  | cons step steps ih =>
    obtain ⟨change, r⟩ := step
    have hchanged := h.mapCache change
    exact ⟨fun b hb => hchanged.answer hb, ih (hchanged.perform r)⟩

theorem run_eq_runAmid (s : Session) (rs : List Request) :
    (s.run rs).2 = s.runAmid (rs.map fun r => (id, r)) := by
  induction rs generalizing s with
  | nil => rfl
  | cons r rs ih =>
    simp only [run, List.map_cons, runAmid, withEngine_mapCache_id]
    rw [ih]

end Session

/-- The answers about closures do not depend on the engine: under any settings, and
whatever happens to the cache, they are those of a search on the graph alone. The
floor of a question matters through its rank only. -/
theorem answers_are_those_of_the_graph (settings : Option Settings) :
    (∀ steps : List ((ShapeCache → ShapeCache) × Request),
        Ledger.empty.Explains (steps.map Prod.snd) ((Session.start settings).runAmid steps)) ∧
      (∀ rs : List Request, Ledger.empty.Explains rs ((Session.start settings).run rs).2) ∧
      ∀ (g : Graph) (start : Variable) (l m : Level), l.rank = m.rank →
        (Frame.ofGraph g).links start (some l) = (Frame.ofGraph g).links start (some m) := by
  have hrun := (Session.mirrors_start settings).explains
  refine ⟨hrun, fun rs => ?_, fun g start l m hrank => ?_⟩
  · rw [Session.run_eq_runAmid]
    simpa only [List.map_map, Function.comp_def, List.map_id'] using hrun (rs.map fun r => (id, r))
  · exact Frame.links_eq_of_rank_eq _ start (congrArg some hrank)

def owner : Variable := ⟨"owner", "owner", .local⟩

def ownerGraph : Graph :=
  (Graph.empty.insertNode owner).insertEdge owner ⟨"member", "member", .field⟩
    (.dependent (.single 0 1 true))

theorem answers_are_those_of_the_graph_owner :
    (Level.dependent (.single 0 1 true)).rank = (Level.dependent .empty).rank ∧
      (Frame.ofGraph ownerGraph).links owner (some (.dependent (.single 0 1 true))) =
        (Frame.ofGraph ownerGraph).links owner (some (.dependent .empty)) :=
  ⟨rfl, (answers_are_those_of_the_graph (some ⟨some true, none, some true, some 1⟩)).2.2
    ownerGraph owner _ _ rfl⟩

end LinkClosure
