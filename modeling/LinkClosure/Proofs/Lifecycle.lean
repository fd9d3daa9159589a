import LinkClosure.Proofs.Engine.Transparency
import LinkClosure.Proofs.InsertionOrder

/-!
# The life of a graph

A graph grows by additions until its closure or its clusters are asked for, and
stays as it is from then on. There are no other ways to change it, so what an
addition and freezing keep holds at any time of any session: the order of
insertion numbers the nodes, and every edge is fit to be stored. An addition that
is refused leaves no trace.
-/

set_option autoImplicit false

namespace LinkClosure

namespace Graph

variable {g g' : Graph} {v w : Variable} {es : List (Variable × Level)}

structure Kept (P : Graph → Prop) : Prop where
  add : ∀ g g' v es, P g → g.add v es = .ok g' → P g'
  freeze : ∀ g, P g → P g.freeze

theorem WellFormed.freeze (hg : g.WellFormed) : g.freeze.WellFormed where
  nodup_order := hg.nodup_order
  mem_order := hg.mem_order
  contains_source := hg.contains_source
  contains_target := hg.contains_target
  ne_independent := hg.ne_independent
  target_not_return := hg.target_not_return

theorem kept_wellFormed : Kept WellFormed where
  add _ _ _ _ hg hadd := hg.add hadd
  freeze _ hg := hg.freeze

theorem kept_frozen (h : g.frozen = true) : Kept fun g' => g' = g where
  add := by
    rintro _ g' v es rfl hadd
    rw [(add_eq_ok hadd).1] at h
    cases h
  freeze := by
    rintro _ rfl
    rw [freeze, ← h]

theorem WellFormed.bijOn_order (hg : g.WellFormed) :
    Set.BijOn g.order.get Set.univ {v | g.contains v = true} := by
  refine ⟨?_, ?_, ?_⟩
  · intro i _
    exact (hg.mem_order _).1 (List.get_mem g.order i)
  · exact hg.nodup_order.injective_get.injOn
  · intro v hv
    obtain ⟨i, hi⟩ := List.mem_iff_get.1 ((hg.mem_order v).2 hv)
    exact ⟨i, Set.mem_univ i, hi⟩

theorem add_succeeds_iff :
    (∃ g', g.add v es = .ok g') ↔
      g.frozen = false ∧ ∀ e ∈ es, e.2 ≠ .independent ∧ e.1.isReturnValue = false := by
  constructor
  · rintro ⟨g', h⟩
    obtain ⟨hfrozen, hes, _⟩ := add_eq_ok h
    exact ⟨hfrozen, hes⟩
  · rintro ⟨hfrozen, hes⟩
    exact ⟨_, add_of_accepted hfrozen v hes⟩

theorem contains_add (h : g.add v es = .ok g') :
    g'.contains w = true ↔ g.contains w = true ∨ w = v ∨ ∃ e ∈ es, e.1 = w := by
  obtain ⟨_, _, rfl⟩ := add_eq_ok h
  rw [contains_insertEdges v w es _ (by simp [contains_insertNode])]
  simp [contains_insertNode, Insertion.ofNode, or_assoc, or_left_comm]

end Graph

namespace Ledger

theorem graph_setGraph_cases (l : Ledger) (n : String) (g : Graph) (name : String) :
    n = name ∧ (l.setGraph n g).graph name = g ∨ (l.setGraph n g).graph name = l.graph name := by
  by_cases hn : name = n
  · exact .inl ⟨hn.symm, if_pos hn⟩
  · exact .inr (if_neg hn)

theorem graph_record (l : Ledger) (r : Request) (name : String) :
    (l.record r).graph name = l.graph name ∨
      (∃ ns, (l.record r).graph name = (Session.addNodes (l.graph name) ns).1) ∨
        (l.record r).graph name = (l.graph name).freeze := by
  cases r with
  | add n v es =>
    rcases l.graph_setGraph_cases n (Session.addNodes (l.graph n) [(v, es)]).1 name with
      ⟨rfl, h⟩ | h
    · exact .inr (.inl ⟨_, h⟩)
    · exact .inl h
  | addAll n ns =>
    rcases l.graph_setGraph_cases n (Session.addNodes (l.graph n) ns).1 name with ⟨rfl, h⟩ | h
    · exact .inr (.inl ⟨_, h⟩)
    · exact .inl h
  | clusters n =>
    rcases l.graph_setGraph_cases n (l.graph n).freeze name with ⟨rfl, h⟩ | h
    · exact .inr (.inr h)
    · exact .inl h
  | close n c =>
    rcases l.graph_setGraph_cases n (l.graph n).freeze name with ⟨rfl, h⟩ | h
    · exact .inr (.inr h)
    · exact .inl h
  | _ => exact .inl rfl

end Ledger

def Request.Freezes (name : String) : Request → Prop
  | .clusters n => n = name
  | .close n _ => n = name
  | _ => False

namespace Session

variable {s : Session} {l : Ledger} {P : Graph → Prop} {name : String}

theorem addNodes_keeps (hP : Graph.Kept P) (ns : List (Variable × List (Variable × Level)))
    {g : Graph} (hg : P g) : P (addNodes g ns).1 := by
  induction ns generalizing g with
  | nil => exact hg
  | cons n ns ih =>
    rw [addNodes]
    split
    · next g' h => exact ih (hP.add g g' n.1 n.2 hg (Graph.add_eq_ok_iff.2 h))
    · next err g' h =>
      rw [Graph.eq_of_run_error h]
      exact hg

theorem Mirrors.run (h : s.Mirrors l) (rs : List Request) :
    (s.run rs).1.Mirrors (rs.foldl Ledger.record l) := by
  induction rs generalizing s l with
  | nil => exact h
  | cons r rs ih => exact ih (h.perform r)

theorem Mirrors.perform_keeps (h : s.Mirrors l) (hP : Graph.Kept P) (hs : P (s.graph name))
    (r : Request) : P ((s.perform r).1.graph name) := by
  rw [h.graph] at hs
  rw [(h.perform r).graph]
  rcases l.graph_record r name with heq | ⟨ns, heq⟩ | heq
  · rwa [heq]
  · rw [heq]
    exact addNodes_keeps hP ns hs
  · rw [heq]
    exact hP.freeze _ hs

theorem Mirrors.run_keeps (h : s.Mirrors l) (hP : Graph.Kept P) (hs : P (s.graph name))
    (rs : List Request) : P ((s.run rs).1.graph name) := by
  induction rs generalizing s l with
  | nil => exact hs
  | cons r rs ih => exact ih (h.perform r) (h.perform_keeps hP hs r)

theorem Mirrors.freeze (h : s.Mirrors l) {r : Request} (hr : Request.Freezes name r) :
    (s.perform r).1.graph name = (s.graph name).freeze := by
  rw [(h.perform r).graph, h.graph]
  cases r with
  | clusters n =>
    obtain rfl : n = name := hr
    simp [Ledger.record, Ledger.setGraph]
  | close n c =>
    obtain rfl : n = name := hr
    simp [Ledger.record, Ledger.setGraph, Ledger.setClosed]
  | _ => cases hr

variable {v : Variable} {es : List (Variable × Level)} {g : Graph} {err : GraphError}

theorem perform_add_ok (h : (s.graph name).add v es = .ok g) :
    s.perform (.add name v es) = (s.setGraph name g, .graph g) := by
  simp [perform, addTo, addNodes, Graph.add_eq_ok_iff.1 h]

theorem perform_add_error (h : (s.graph name).add v es = .error err) :
    s.perform (.add name v es) = (s.setGraph name (s.graph name), .failure err) := by
  simp [perform, addTo, addNodes, Graph.add_eq_error_iff.1 h]

/-- What can be relied on in the graph of a name at some time of a session. -/
structure Guards (s : Session) (name : String) : Prop where
  positions : Set.BijOn (s.graph name).order.get Set.univ {v | (s.graph name).contains v = true}
  ends : ∀ u v l, (s.graph name).level? u v = some l →
    (s.graph name).contains u = true ∧ (s.graph name).contains v = true
  related : ∀ u v l, (s.graph name).level? u v = some l → l ≠ .independent
  observing : ∀ u v l, (s.graph name).level? u v = some l → v.isReturnValue = false
  accepts : ∀ v es, (∃ g, (s.perform (.add name v es)).2 = .graph g) ↔
    (s.graph name).frozen = false ∧ ∀ e ∈ es, e.2 ≠ .independent ∧ e.1.isReturnValue = false
  grows : ∀ v es g, (s.perform (.add name v es)).2 = .graph g →
    (s.perform (.add name v es)).1.graph name = g ∧
      ∀ w, g.contains w = true ↔ (s.graph name).contains w = true ∨ w = v ∨ ∃ e ∈ es, e.1 = w
  refuses : ∀ v es, (∀ g, (s.perform (.add name v es)).2 ≠ .graph g) →
    (∃ err, (s.perform (.add name v es)).2 = .failure err) ∧
      ∀ n, (s.perform (.add name v es)).1.graph n = s.graph n
  settles : ∀ r rs, Request.Freezes name r →
    ((s.perform r).1.run rs).1.graph name = (s.graph name).freeze

theorem Mirrors.guards (h : s.Mirrors l) (hs : (s.graph name).WellFormed) : s.Guards name where
  positions := hs.bijOn_order
  ends u v k hk := ⟨hs.contains_source u v k hk, hs.contains_target u v k hk⟩
  related := hs.ne_independent
  observing := hs.target_not_return
  accepts v es := by
    rw [← Graph.add_succeeds_iff]
    cases hadd : (s.graph name).add v es with
    | ok g => simp [perform_add_ok hadd]
    | error err => simp [perform_add_error hadd]
  grows v es g hg := by
    cases hadd : (s.graph name).add v es with
    | ok g' =>
      rw [perform_add_ok hadd] at hg ⊢
      obtain rfl := Answer.graph.inj hg
      refine ⟨?_, fun w => Graph.contains_add hadd⟩
      rw [graph_setGraph, if_pos rfl]
    | error err =>
      rw [perform_add_error hadd] at hg
      cases hg
  refuses v es hno := by
    cases hadd : (s.graph name).add v es with
    | ok g =>
      rw [perform_add_ok hadd] at hno
      exact absurd rfl (hno g)
    | error err =>
      rw [perform_add_error hadd]
      refine ⟨⟨err, rfl⟩, ?_⟩
      intro n
      rw [graph_setGraph]
      split_ifs with hn
      · rw [hn]
      · rfl
  settles r rs hr := by
    have hfrozen : (s.graph name).freeze.frozen = true := rfl
    exact (h.perform r).run_keeps (Graph.kept_frozen hfrozen) (h.freeze hr) rs

end Session

/-- At any time of any session every graph is well numbered and its edges are fit to be
stored, additions succeed just where they should and leave no trace where they
fail, and nothing changes a graph any more whose closure or clusters were asked
for. -/
theorem sessions_guard_graphs (settings : Option Settings) (rs : List Request) (name : String) :
    ((Session.start settings).run rs).1.Guards name := by
  have hstart := Session.mirrors_start settings
  have hempty : ((Session.start settings).graph name).WellFormed := by
    rw [hstart.graph]
    exact Graph.wellFormed_empty
  exact (hstart.run rs).guards (hstart.run_keeps Graph.kept_wellFormed hempty rs)

end LinkClosure
