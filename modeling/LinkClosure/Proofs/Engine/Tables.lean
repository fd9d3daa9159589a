import LinkClosure.Engine
import LinkClosure.Proofs.Graph.Outline
import LinkClosure.Proofs.Graph.Rows

/-!
# Tables that serve a shape

A table holds rows of its shape only: whatever graph of that shape asks for a
stored row, the row is what it would compute itself. No operation of the engine
breaks this, takes a table away or changes the shape of one. What the cache
answers is not relied on, since its answer is compared with the shape; an answer
that does not fit costs a new table and nothing else.
-/

set_option autoImplicit false

namespace LinkClosure

namespace RowTable

/-- Stored rows are the rows of all graphs of the shape. -/
def Sound (t : RowTable) : Prop :=
  ∀ k row, t.find? k = some row →
    ∀ (f : Frame) (i : Fin f.nodes.size) (floor : Option Level), f.shape = t.shape →
      i.val = k.start → floor.map Level.rank = k.floor → row = f.edges.row i floor

theorem sound_ofShape (shape : String) : (ofShape shape).Sound := by
  intro k row h
  cases h

theorem Sound.countSaving {t : RowTable} (h : t.Sound) : t.countSaving.Sound := h

theorem find?_store (t : RowTable) (k k' : RowKey) (row : Row) :
    (t.store k row).find? k' = if k' = k then some row else t.find? k' := by
  by_cases h : k' = k
  · simp [find?, store, h]
  · have hne : (k' == k) = false := beq_eq_false_iff_ne.2 h
    simp [find?, store, List.lookup_cons, h, hne]

/-- A row that one graph of the shape has computed serves all of them. -/
theorem Sound.store {t : RowTable} (h : t.Sound) {f : Frame} (hf : f.shape = t.shape)
    (i : Fin f.nodes.size) (floor : Option Level) :
    (t.store ⟨i.val, floor.map Level.rank⟩ (f.edges.row i floor)).Sound := by
  intro k row hrow f' i' floor' hf' hi' hfloor'
  rw [find?_store] at hrow
  split_ifs at hrow with hk
  · subst hk
    rw [← Option.some.inj hrow]
    have houtline : f.edges.outline = f'.edges.outline :=
      Frame.outline_eq_of_shape_eq (hf.trans hf'.symm)
    rw [Adjacency.row_eq_of_rank_eq f.edges i hfloor'.symm]
    exact Adjacency.row_eq_of_outline_eq houtline hi'.symm floor'
  · exact h k row hrow f' i' floor' hf' hi' hfloor'

end RowTable

namespace Engine

def Sound (e : Engine) : Prop := ∀ (k : Nat) (t : RowTable), e.tables[k]? = some t → t.Sound

def Serves (e : Engine) (table : Nat) (shape : String) : Prop :=
  ∃ t, e.tables[table]? = some t ∧ t.shape = shape

theorem Serves.lt {e : Engine} {table : Nat} {shape : String} (h : e.Serves table shape) :
    table < e.tables.size := by
  obtain ⟨t, ht, -⟩ := h
  exact (Array.getElem?_eq_some_iff.1 ht).1

/-- What one operation leaves to the next: rows that may be relied on, and all tables
with their shapes. -/
structure Follows (e e' : Engine) : Prop where
  sound : e.Sound → e'.Sound
  serves : ∀ table shape, e.Serves table shape → e'.Serves table shape

theorem Follows.refl (e : Engine) : e.Follows e := ⟨id, fun _ _ => id⟩

theorem Follows.trans {e e' e'' : Engine} (h : e.Follows e') (h' : e'.Follows e'') :
    e.Follows e'' :=
  ⟨fun hs => h'.sound (h.sound hs), fun k shape hk => h'.serves k shape (h.serves k shape hk)⟩

theorem follows_of_tables_eq {e e' : Engine} (h : e'.tables = e.tables) : e.Follows e' := by
  constructor
  · intro hs k t hk
    exact hs k t (h ▸ hk)
  · rintro k shape ⟨t, hk, ht⟩
    exact ⟨t, h ▸ hk, ht⟩

theorem push_spec {e e' : Engine} {shape : String}
    (h : e'.tables = e.tables.push (.ofShape shape)) :
    e.Follows e' ∧ e'.Serves e.tables.size shape := by
  refine ⟨⟨?_, ?_⟩, ?_⟩
  · intro hs k t hk
    rw [h, Array.getElem?_push] at hk
    split_ifs at hk
    · rw [← Option.some.inj hk]
      exact RowTable.sound_ofShape shape
    · exact hs k t hk
  · rintro k shape' ⟨t, hk, ht⟩
    have hlt := Serves.lt ⟨t, hk, ht⟩
    refine ⟨t, ?_, ht⟩
    rw [h, Array.getElem?_push, if_neg (by omega)]
    exact hk
  · exact ⟨.ofShape shape, by rw [h, Array.getElem?_push, if_pos rfl], rfl⟩

theorem modify_follows {e e' : Engine} {table : Nat} {change : RowTable → RowTable}
    (h : e'.tables = e.tables.modify table change)
    (hsound : ∀ t, e.tables[table]? = some t → t.Sound → (change t).Sound)
    (hshape : ∀ t, (change t).shape = t.shape) : e.Follows e' := by
  constructor
  · intro hs k t hk
    rw [h, Array.getElem?_modify] at hk
    split_ifs at hk with hk'
    · obtain ⟨t', ht', rfl⟩ := Option.map_eq_some_iff.1 hk
      exact hsound t' (hk' ▸ ht') (hs k t' ht')
    · exact hs k t hk
  · rintro k shape ⟨t, hk, ht⟩
    simp only [Serves, h, Array.getElem?_modify]
    split_ifs with hk'
    · exact ⟨change t, by rw [hk, Option.map_some], (hshape t).trans ht⟩
    · exact ⟨t, hk, ht⟩

theorem serves_of_hasShape {e : Engine} {shape : String} {table : Nat}
    (h : e.hasShape shape table = true) : e.Serves table shape := by
  cases ht : e.tables[table]? with
  | none => simp [hasShape, ht] at h
  | some t => exact ⟨t, ht, by simpa [hasShape, ht] using h⟩

theorem tableFor_spec (shape : String) (e : Engine) :
    e.Follows (e.tableFor shape).1 ∧
      (e.tableFor shape).1.Serves (e.tableFor shape).2 shape := by
  cases hc : e.cache with
  | none =>
    simp only [tableFor, hc]
    exact push_spec rfl
  | some c =>
    simp only [tableFor, hc]
    cases hfind : c.find? (digest shape) with
    | none => exact push_spec rfl
    | some table =>
      simp only []
      split_ifs with hshape
      · exact ⟨follows_of_tables_eq rfl, serves_of_hasShape hshape⟩
      · exact push_spec rfl

theorem row_eq {e : Engine} (he : e.Sound) {c : Closure} (hc : e.Serves c.table c.frame.shape)
    (i : Fin c.frame.nodes.size) (floor : Option Level) :
    (e.row c i floor).2 = c.frame.edges.row i floor := by
  obtain ⟨t, ht, hshape⟩ := hc
  cases hfind : t.find? ⟨i.val, floor.map Level.rank⟩ with
  | none => simp [row, ht, hfind]
  | some stored =>
    simp only [row, ht, Option.bind_some, hfind]
    exact he _ t ht _ stored hfind c.frame i floor hshape.symm rfl rfl

theorem row_follows {e : Engine} {c : Closure} (hc : e.Serves c.table c.frame.shape)
    (i : Fin c.frame.nodes.size) (floor : Option Level) : e.Follows (e.row c i floor).1 := by
  obtain ⟨t, ht, hshape⟩ := hc
  cases hfind : t.find? ⟨i.val, floor.map Level.rank⟩ with
  | none =>
    simp only [row, ht, Option.bind_some, hfind]
    refine modify_follows rfl (fun t' ht' hs => ?_) fun _ => rfl
    obtain rfl : t = t' := Option.some.inj (ht.symm.trans ht')
    exact hs.store hshape.symm i floor
  | some stored =>
    simp only [row, ht, Option.bind_some, hfind]
    exact modify_follows rfl (fun _ _ hs => hs.countSaving) fun _ => rfl

theorem rows_follows {e : Engine} {c : Closure} (hc : e.Serves c.table c.frame.shape)
    (is : List (Fin c.frame.nodes.size)) :
    e.Follows (is.foldl (fun e i => (e.row c i none).1) e) := by
  induction is generalizing e with
  | nil => exact .refl e
  | cons i is ih =>
    have hstep := row_follows hc i none
    exact hstep.trans (ih (hstep.serves _ _ hc))

theorem close_spec (g : Graph) (e : Engine) :
    e.Follows (e.close g).1 ∧ (e.close g).2.frame = Frame.ofGraph g ∧
      (e.close g).1.Serves (e.close g).2.table (Frame.ofGraph g).shape := by
  have hlog : e.Follows (e.log (.graphFrozen (Frame.ofGraph g).size (Frame.ofGraph g).edgeCount)) :=
    follows_of_tables_eq rfl
  obtain ⟨htable, hserves⟩ := tableFor_spec (Frame.ofGraph g).shape
    (e.log (.graphFrozen (Frame.ofGraph g).size (Frame.ofGraph g).edgeCount))
  simp only [close]
  split_ifs
  · have hrows := rows_follows (c := ⟨Frame.ofGraph g, _⟩) hserves (List.finRange _)
    exact ⟨(hlog.trans htable).trans hrows, trivial, hrows.serves _ _ hserves⟩
  · exact ⟨hlog.trans htable, trivial, hserves⟩

theorem links_spec {e : Engine} (he : e.Sound) {c : Closure}
    (hc : e.Serves c.table c.frame.shape) (start : Variable) (floor : Option Level) :
    e.Follows (e.links c start floor).1 ∧
      (e.links c start floor).2 = c.frame.links start floor := by
  cases hi : c.frame.position? start with
  | none =>
    simp only [links, Frame.links, hi]
    exact ⟨.refl e, trivial⟩
  | some i =>
    simp only [links, Frame.links, hi, row_eq he hc]
    exact ⟨row_follows hc i floor, trivial⟩

end Engine

def Frame.linksOfAll (f : Frame) : List (Variable × SortedMap Variable Level) :=
  (List.finRange f.nodes.size).map fun i => (f.node i, f.named (f.edges.row i none))

namespace Engine

theorem linksOfAll_foldl {e : Engine} (he : e.Sound) {c : Closure}
    (hc : e.Serves c.table c.frame.shape) (is : List (Fin c.frame.nodes.size))
    (rows : List (Variable × SortedMap Variable Level)) :
    let r := is.foldl (fun (acc : Engine × List _) i =>
      ((acc.1.row c i none).1,
        acc.2 ++ [(c.frame.node i, c.frame.named (acc.1.row c i none).2)])) (e, rows)
    e.Follows r.1 ∧
      r.2 = rows ++ is.map fun i => (c.frame.node i, c.frame.named (c.frame.edges.row i none)) := by
  induction is generalizing e rows with
  | nil => exact ⟨.refl e, (List.append_nil rows).symm⟩
  | cons i is ih =>
    have hstep := row_follows hc i none
    obtain ⟨hrest, hrows⟩ := ih (hstep.sound he) (hstep.serves _ _ hc)
      (rows ++ [(c.frame.node i, c.frame.named (e.row c i none).2)])
    refine ⟨hstep.trans hrest, hrows.trans ?_⟩
    rw [row_eq he hc, List.map_cons, List.append_assoc, List.singleton_append]

theorem linksOfAll_spec {e : Engine} (he : e.Sound) {c : Closure}
    (hc : e.Serves c.table c.frame.shape) :
    e.Follows (e.linksOfAll c).1 ∧ (e.linksOfAll c).2 = c.frame.linksOfAll :=
  linksOfAll_foldl he hc (List.finRange _) []

end Engine

end LinkClosure
