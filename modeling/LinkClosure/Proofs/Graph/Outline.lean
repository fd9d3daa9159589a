import LinkClosure.Graph.Frame
import LinkClosure.Proofs.Text.Separated
import Mathlib.Data.Prod.Basic

/-!
# What a shape tells

The shape of a frame is a legible text: it tells the levels of all edges in full.
Two frames with the same shape therefore have the same edges by number, whatever
their variables are called, and with them the same rows.
-/

set_option autoImplicit false

namespace LinkClosure

namespace Shape

open Text

theorem exists_head_append {text : String} {d : Char} (h : ∃ ds, text.toList = d :: ds)
    (more : String) : ∃ ds, (text ++ more).toList = d :: ds := by
  obtain ⟨ds, hds⟩ := h
  exact ⟨ds ++ more.toList, by rw [String.toList_append, hds, List.cons_append]⟩

theorem legible_braced {α : Type} {stop stop' : Char → Prop} {write : α → String}
    (h : Legible stop write) (hcomma : stop ',') (hbrace : stop '\x7d') {d : Char}
    (hd : d ≠ '\x7d') (hitem : ∀ a, ∃ ds, (write a).toList = d :: ds) :
    Legible stop' fun as : List α => braced (as.map write) := by
  refine h.listed hcomma "\x7b" rfl hbrace (by decide) fun a => ?_
  obtain ⟨ds, hds⟩ := hitem a
  exact ⟨d, ds, hds, hd⟩

theorem legible_coordinate {stop : Char → Prop} : Legible stop coordinate := by
  have hitem : ∀ z : Int, ∃ d ds, (toString z).toList = d :: ds ∧ d ≠ ']' := by
    intro z
    cases hz : (toString z).toList with
    | nil => exact absurd hz (toString_int_ne_nil z)
    | cons d ds =>
      have hd : isIntChar d = true := isIntChar_of_mem_toString (hz ▸ List.mem_cons_self)
      refine ⟨d, ds, rfl, ?_⟩
      rintro rfl
      exact absurd hd (by decide)
  have hlisted : Legible stop fun segments : List Int =>
      "Index([" ++ listed (segments.map toString) ++ "])" :=
    legible_int.listed (by decide) "Index([" rfl (by decide) (by decide) hitem
  have hinj : Function.Injective Coordinate.segments := by
    rintro ⟨a⟩ ⟨b⟩ rfl
    rfl
  -- Stated first: against the goal, `comap` would be unified with an unfolded text.
  have htext := hlisted.comap hinj
  exact htext

theorem head_coordinate (c : Coordinate) : ∃ ds, (coordinate c).toList = 'I' :: ds :=
  exists_head_append (exists_head_append ⟨_, rfl⟩ _) _

theorem legible_coordinateSet {stop : Char → Prop} : Legible stop coordinateSet := by
  have hcoordinate : Legible (fun _ => True) coordinate := legible_coordinate
  have hbraced : Legible (fun _ => True) fun cs : List Coordinate => braced (cs.map coordinate) :=
    legible_braced hcoordinate trivial trivial (by decide) head_coordinate
  have hclosed : Legible stop fun cs : List Coordinate =>
      "Indices(" ++ braced (cs.map coordinate) ++ ")" :=
    (hbraced.after "Indices(").before ")" fun _ => ends_any _
  have hinj : Function.Injective CoordinateSet.toList := by
    rintro ⟨a⟩ ⟨b⟩ h
    exact congrArg CoordinateSet.mk (SortedSet.toList_inj.1 h)
  have htext := hclosed.comap hinj
  exact htext

theorem head_coordinateSet (s : CoordinateSet) : ∃ ds, (coordinateSet s).toList = 'I' :: ds :=
  exists_head_append (exists_head_append ⟨_, rfl⟩ _) _

theorem legible_flag {stop : Char → Prop} : Legible stop flag := by
  intro a b rest rest' _ _ h
  cases a <;> cases b <;> simp_all [flag]

theorem legible_link {stop : Char → Prop} : Legible stop link := by
  have htarget : Legible (fun _ => True) fun s => "Link \x7b to: " ++ coordinateSet s :=
    legible_coordinateSet.after _
  have hpair : Legible (fun _ => True) fun x : CoordinateSet × Bool =>
      "Link \x7b to: " ++ coordinateSet x.1 ++ ", mutable: " ++ flag x.2 :=
    htarget.pairBy legible_flag _ fun _ => ends_any _
  have hclosed : Legible stop fun x : CoordinateSet × Bool =>
      "Link \x7b to: " ++ coordinateSet x.1 ++ ", mutable: " ++ flag x.2 ++ " \x7d" :=
    hpair.before _ fun _ => ends_any _
  have hinj : Function.Injective fun l : Link => (l.target, l.isMutable) := by
    rintro ⟨s, a⟩ ⟨t, b⟩ h
    obtain ⟨rfl, rfl⟩ := Prod.mk.inj h
    rfl
  have htext := hclosed.comap hinj
  exact htext

theorem legible_entries {stop : Char → Prop} :
    Legible stop fun es : List (CoordinateSet × Link) =>
      braced (es.map fun e => coordinateSet e.1 ++ ": " ++ link e.2) := by
  have hset : Legible (fun _ => True) coordinateSet := legible_coordinateSet
  have hentry : Legible (fun _ => True) fun e : CoordinateSet × Link =>
      coordinateSet e.1 ++ ": " ++ link e.2 := hset.pairBy legible_link _ fun _ => ends_any _
  refine legible_braced hentry trivial trivial (d := 'I') (by decide) fun e => ?_
  exact exists_head_append (exists_head_append (head_coordinateSet e.1) _) _

theorem legible_linkage {stop : Char → Prop} : Legible stop linkage := by
  have hset : Legible (fun _ => True) coordinateSet := legible_coordinateSet
  have hlinks : Legible (fun _ => True) _ := legible_entries.after "LinkMap \x7b map: "
  have hsource := hlinks.pairBy hset ", modification_area_source: " fun _ => ends_any _
  have htarget := hsource.pairBy hset ", modification_area_target: " fun _ => ends_any _
  have hclosed : Legible stop _ := htarget.before " \x7d" fun _ => ends_any _
  have hinj : Function.Injective fun m : Linkage => ((m.entries, m.sourceArea), m.targetArea) := by
    intro m n h
    simp only [Prod.mk.injEq, Linkage.entries, SortedMap.entries_inj] at h
    cases m
    cases n
    simp_all
  have htext := hclosed.comap hinj
  exact htext

theorem legible_causes {stop : Char → Prop} : Legible stop causes := by
  have hquoted : Legible (fun _ => True) quoted := legible_quoted
  have hhead : ∀ s, ∃ ds, (quoted s).toList = '"' :: ds := fun s => ⟨_, String.toList_ofList⟩
  have hbraced : Legible (fun _ => True) fun ls : List String => braced (ls.map quoted) :=
    legible_braced hquoted trivial trivial (by decide) hhead
  have hclosed : Legible stop fun ls : List String =>
      "DelayCauses(" ++ braced (ls.map quoted) ++ ")" :=
    (hbraced.after "DelayCauses(").before ")" fun _ => ends_any _
  have hinj : Function.Injective Causes.toList := by
    rintro ⟨a⟩ ⟨b⟩ h
    exact congrArg Causes.mk (SortedSet.toList_inj.1 h)
  have htext := hclosed.comap hinj
  exact htext

theorem legible_level {stop : Char → Prop} : Legible stop level := by
  have hdependent : Legible stop fun m => "Dependent(" ++ linkage m ++ ")" :=
    (legible_linkage.after _).before ")" fun _ => ends_any _
  have hhidden : Legible stop fun m => "CommonHc(" ++ linkage m ++ ")" :=
    (legible_linkage.after _).before ")" fun _ => ends_any _
  have hdelayed : Legible stop fun c => "Delayed(" ++ causes c ++ ")" :=
    (legible_causes.after _).before ")" fun _ => ends_any _
  intro a b rest rest' hrest hrest' h
  cases a <;> cases b
  case dependent.dependent m n =>
    obtain ⟨rfl, hrests⟩ := hdependent m n rest rest' hrest hrest' h
    exact ⟨rfl, hrests⟩
  case commonHidden.commonHidden m n =>
    obtain ⟨rfl, hrests⟩ := hhidden m n rest rest' hrest hrest' h
    exact ⟨rfl, hrests⟩
  case delayed.delayed c d =>
    obtain ⟨rfl, hrests⟩ := hdelayed c d rest rest' hrest hrest' h
    exact ⟨rfl, hrests⟩
  all_goals simp_all [level]

end Shape

namespace Adjacency

variable {n : Nat}

/-- The edges with plain numbers for nodes. -/
def outline (edges : Adjacency n) : List (List (Nat × Level)) :=
  edges.toList.map fun es => es.map fun e => (e.1.val, e.2)

theorem length_outline (edges : Adjacency n) : edges.outline.length = n := by
  simp [outline]

end Adjacency

namespace Frame

open Text Shape

def edgeShape (e : Nat × Level) : String := ">" ++ toString e.1 ++ ":" ++ Shape.level e.2 ++ ";"

theorem legible_edgeShape {stop : Char → Prop} : Legible stop edgeShape := by
  have hlevel : Legible (fun _ => True) Shape.level := Shape.legible_level
  have hpair : Legible (fun _ => True) fun e : Nat × Level =>
      ">" ++ toString e.1 ++ ":" ++ Shape.level e.2 :=
    (legible_nat.after ">").pairBy hlevel ":" fun rest => ends_cons (by decide)
  exact hpair.before ";" fun _ => ends_any _

def numberedShape (x : Nat × List (Nat × Level)) : String :=
  "#" ++ toString x.1 ++ String.join (x.2.map edgeShape)

theorem head_edgeShape (e : Nat × Level) : ∃ ds, (edgeShape e).toList = '>' :: ds :=
  exists_head_append (exists_head_append (exists_head_append (exists_head_append ⟨_, rfl⟩ _) _) _) _

theorem head_numberedShape (x : Nat × List (Nat × Level)) :
    ∃ ds, (numberedShape x).toList = '#' :: ds :=
  exists_head_append (exists_head_append ⟨_, rfl⟩ _) _

theorem legible_numberedShape : Legible (fun c => c = '#') numberedShape := by
  have hedge : Legible (fun _ => True) edgeShape := legible_edgeShape
  have hedges : Legible (fun c => c = '#') fun es : List (Nat × Level) =>
      String.join (es.map edgeShape) := by
    refine (hedge.joined trivial head_edgeShape).mono ?_
    rintro c rfl
    exact ⟨trivial, by decide⟩
  have hnext : ∀ (es : List (Nat × Level)) rest, Ends (fun c => c = '#') rest →
      Ends (fun c => c.isDigit = false) ((String.join (es.map edgeShape)).toList ++ rest) := by
    intro es rest hrest
    cases es with
    | nil =>
      intro c hc
      rw [hrest c hc]
      decide
    | cons e es =>
      obtain ⟨ds, hds⟩ := head_edgeShape e
      rw [List.map_cons, String.join_cons, String.toList_append, hds]
      exact ends_cons (by decide)
  have htext := (legible_nat.after "#").pair hedges hnext
  exact htext

theorem nodeShape_eq {n : Nat} (i : Nat) (es : List (Fin n × Level)) :
    nodeShape i es = numberedShape (i, es.map fun e => (e.1.val, e.2)) := by
  simp only [nodeShape, numberedShape, edgeShape, List.map_map, Function.comp_def]

theorem shape_eq (f : Frame) :
    f.shape = String.join ((f.edges.outline.zipIdx.map Prod.swap).map numberedShape) := by
  rw [shape, Adjacency.outline, List.mapIdx_eq_zipIdx_map, List.zipIdx_map, List.map_map,
    List.map_map]
  congr 1
  refine List.map_congr_left fun x _ => ?_
  exact nodeShape_eq x.2 x.1

/-- The shape tells the edges. -/
theorem outline_eq_of_shape_eq {f f' : Frame} (h : f.shape = f'.shape) :
    f.edges.outline = f'.edges.outline := by
  rw [shape_eq, shape_eq] at h
  have hswapped := (legible_numberedShape.joined rfl head_numberedShape).injective h
  have hnumbered := (List.map_inj_right Prod.swap_injective).1 hswapped
  rw [← List.zipIdx_map_fst 0 f.edges.outline, hnumbered, List.zipIdx_map_fst]

end Frame

namespace Adjacency

variable {n n' : Nat}

theorem outline_inj {edges edges' : Adjacency n} (h : edges.outline = edges'.outline) :
    edges = edges' := by
  have hedge : ∀ e e' : Fin n × Level, (e.1.val, e.2) = (e'.1.val, e'.2) → e = e' := by
    intro e e' heq
    exact Prod.ext (Fin.ext (Prod.mk.inj heq).1) (Prod.mk.inj heq).2
  have hlists := (List.map_inj_right fun _ _ => (List.map_inj_right hedge).1).1 h
  exact Vector.toList_inj.1 hlists

theorem row_eq_of_outline_eq {edges : Adjacency n} {edges' : Adjacency n'}
    (h : edges.outline = edges'.outline) {i : Fin n} {i' : Fin n'} (hi : i.val = i'.val)
    (floor : Option Level) : edges.row i floor = edges'.row i' floor := by
  obtain rfl : n = n' := by
    rw [← edges.length_outline, h, length_outline]
  rw [outline_inj h, Fin.ext hi]

theorem weights_eq_of_rank_eq {l m : Level} (h : l.rank = m.rank) :
    Weight.low l = Weight.low m ∧ Weight.high l = Weight.high m := by
  cases l <;> cases m <;> simp_all [Level.rank, Weight.low, Weight.high]

theorem row_eq_of_rank_eq (edges : Adjacency n) (i : Fin n) {floor floor' : Option Level}
    (h : floor.map Level.rank = floor'.map Level.rank) :
    edges.row i floor = edges.row i floor' := by
  cases floor with
  | none =>
    cases floor' with
    | none => rfl
    | some m => cases h
  | some l =>
    cases floor' with
    | none => cases h
    | some m =>
      obtain ⟨hlow, hhigh⟩ := weights_eq_of_rank_eq (Option.some.inj h)
      simp only [row, lowSearch, highSearch, floorLimit, hlow, hhigh]

end Adjacency

theorem Frame.links_eq_of_rank_eq (f : Frame) (start : Variable) {floor floor' : Option Level}
    (h : floor.map Level.rank = floor'.map Level.rank) :
    f.links start floor = f.links start floor' := by
  unfold links
  split
  · rfl
  · rw [Adjacency.row_eq_of_rank_eq f.edges _ h]

end LinkClosure
