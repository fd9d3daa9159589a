import LinkClosure.Proofs.Codes
import LinkClosure.Proofs.Shapes

/-!
# What a signature tells

A signature lists the nodes with their edges, and for each edge the number of its
target and the code of its level. The edges come in the order of these texts, and
the separator between them is also the one inside of coordinate sets. It can be
read all the same, from behind: there is one colon in the text of an edge. Read so
the signature tells the codes, and no more. Levels that the codes do not tell apart
are exchangeable in it.
-/

set_option autoImplicit false

namespace LinkClosure

open Text

namespace Adjacency

variable {n : Nat}

/-- The edges with plain numbers for nodes and with codes for levels. -/
def abridged (edges : Adjacency n) : List (List (Nat × String)) :=
  edges.toList.map fun es => es.map fun e => (e.1.val, Frame.code e.2)

theorem length_abridged (edges : Adjacency n) : edges.abridged.length = n := by
  simp [abridged]

end Adjacency

namespace Frame

def inTextOrder (cs : List (Nat × String)) : List (Nat × String) :=
  cs.mergeSort fun a b => compare (numbered a) (numbered b) != .gt

def codesText (cs : List (Nat × String)) : String :=
  if cs.isEmpty then "/" else "(" ++ ";".intercalate ((inTextOrder cs).map numbered) ++ ")"

def numberedSignature (x : Nat × List (Nat × String)) : String := toString x.1 ++ codesText x.2

theorem nodeSignature_eq {n : Nat} (i : Nat) (es : List (Fin n × Level)) :
    nodeSignature i es = numberedSignature (i, es.map fun e => (e.1.val, code e.2)) := by
  have hsort : ∀ cs : List (Nat × String), (inTextOrder cs).map numbered =
      (cs.map numbered).mergeSort fun a b => compare a b != .gt :=
    fun cs => List.map_mergeSort fun _ _ _ _ => rfl
  rw [nodeSignature, numberedSignature, codesText, List.isEmpty_map]
  split_ifs
  · rfl
  · rw [hsort, List.map_map, String.append_assoc, String.append_assoc]
    rfl

theorem signature_eq (f : Frame) :
    f.signature = String.join ((f.edges.abridged.zipIdx.map Prod.swap).map numberedSignature) := by
  rw [signature, Adjacency.abridged, List.mapIdx_eq_zipIdx_map, List.zipIdx_map, List.map_map,
    List.map_map]
  congr 1
  refine List.map_congr_left fun x _ => ?_
  exact nodeSignature_eq x.2 x.1

/-- Codes of the edges of one node: in the order of the targets, and without the
characters that the text of a node puts around them. -/
structure Codes (cs : List (Nat × String)) : Prop where
  increasing : cs.Pairwise fun a b => a.1 < b.1
  colon : ∀ c ∈ cs, ':' ∉ c.2.toList
  parenthesis : ∀ c ∈ cs, ')' ∉ c.2.toList

theorem Codes.ext_mem {cs ds : List (Nat × String)} (hcs : Codes cs) (hds : Codes ds)
    (h : ∀ x, x ∈ cs ↔ x ∈ ds) : cs = ds := by
  apply increasing_ext _ hcs.increasing hds.increasing h
  intro a b hab hba
  omega

theorem notMem_intercalate {cs : List (Nat × String)} (hcs : Codes cs) :
    ')' ∉ (";".intercalate ((inTextOrder cs).map numbered)).toList := by
  intro hmem
  refine forall_mem_intercalate (p := fun c => c ≠ ')') (rfl : ";".toList = [';']) (by decide)
    ?_ _ hmem rfl
  intro t ht
  obtain ⟨x, hx, rfl⟩ := List.mem_map.1 ht
  rw [toList_numbered]
  refine List.forall_mem_append.2 ⟨?_, List.forall_mem_cons.2 ⟨by decide, ?_⟩⟩
  · rintro c hc rfl
    exact notMem_digits (by decide) x.1 hc
  · rintro c hc rfl
    exact hcs.parenthesis x ((List.mergeSort_perm cs _).mem_iff.1 hx) hc

theorem codes_inj {cs ds : List (Nat × String)} (hcs : Codes cs) (hds : Codes ds)
    (h : (";".intercalate ((inTextOrder cs).map numbered)).toList =
      (";".intercalate ((inTextOrder ds).map numbered)).toList) : cs = ds := by
  have hperm : ∀ cs : List (Nat × String), (inTextOrder cs).Perm cs :=
    fun cs => List.mergeSort_perm cs _
  have hsorted : inTextOrder cs = inTextOrder ds := by
    apply intercalate_numbered_inj _ _ h
    · intro x hx
      exact hcs.colon x ((hperm cs).mem_iff.1 hx)
    · intro x hx
      exact hds.colon x ((hperm ds).mem_iff.1 hx)
  apply hcs.ext_mem hds
  intro x
  rw [← (hperm cs).mem_iff, hsorted, (hperm ds).mem_iff]

theorem toList_codesText_cons (c : Nat × String) (cs : List (Nat × String)) :
    (codesText (c :: cs)).toList =
      '(' :: ((";".intercalate ((inTextOrder (c :: cs)).map numbered)).toList ++ [')']) := by
  simp [codesText]

theorem legible_codesText : LegibleOn Codes (fun _ => True) codesText := by
  have hother : ∀ (c : Nat × String) (cs : List (Nat × String)) (rest rest' : List Char),
      (codesText []).toList ++ rest ≠ (codesText (c :: cs)).toList ++ rest' := by
    intro c cs rest rest' h
    rw [toList_codesText_cons] at h
    exact absurd (List.cons.inj h).1 (by decide)
  intro cs ds rest rest' hcs hds _ _ h
  cases cs with
  | nil =>
    cases ds with
    | nil => exact ⟨rfl, List.append_cancel_left h⟩
    | cons d ds => exact absurd h (hother d ds rest rest')
  | cons c cs =>
    cases ds with
    | nil => exact absurd h.symm (hother c cs rest' rest)
    | cons d ds =>
      rw [toList_codesText_cons, toList_codesText_cons, List.cons_append, List.cons_append,
        List.append_assoc, List.append_assoc] at h
      obtain ⟨hcodes, hrests⟩ :=
        cut_first (notMem_intercalate hcs) (notMem_intercalate hds) (List.cons.inj h).2
      exact ⟨codes_inj hcs hds hcodes, hrests⟩

theorem ends_codesText (cs : List (Nat × String)) (rest : List Char) :
    Ends (fun c => c.isDigit = false) ((codesText cs).toList ++ rest) := by
  cases cs with
  | nil => exact ends_cons (by decide)
  | cons c cs =>
    rw [toList_codesText_cons]
    exact ends_cons (by decide)

theorem legible_numberedSignature :
    LegibleOn (fun x : Nat × List (Nat × String) => Codes x.2) (fun _ => True)
      numberedSignature := by
  intro x y rest rest' hx hy hrest hrest' h
  rw [numberedSignature, numberedSignature, String.toList_append, String.toList_append,
    List.append_assoc, List.append_assoc] at h
  obtain ⟨hnumber, htexts⟩ :=
    legible_nat x.1 y.1 _ _ (ends_codesText x.2 rest) (ends_codesText y.2 rest') h
  obtain ⟨hcodes, hrests⟩ := legible_codesText x.2 y.2 rest rest' hx hy hrest hrest' htexts
  exact ⟨Prod.ext hnumber hcodes, hrests⟩

theorem numberedSignature_ne_nil (x : Nat × List (Nat × String)) :
    (numberedSignature x).toList ≠ [] := by
  rw [numberedSignature, String.toList_append]
  intro h
  exact toString_int_ne_nil x.1 (List.append_eq_nil_iff.1 h).1

theorem codes_of_ordered {f : Frame} (hf : f.edges.Ordered) :
    ∀ cs ∈ f.edges.abridged, Codes cs := by
  intro cs hcs
  obtain ⟨es, hes, rfl⟩ := List.mem_map.1 hcs
  obtain ⟨i, hi, rfl⟩ := List.getElem_of_mem hes
  rw [Vector.length_toList] at hi
  refine ⟨List.pairwise_map.2 (hf ⟨i, hi⟩), ?_, ?_⟩
  · intro c hc
    obtain ⟨e, _, rfl⟩ := List.mem_map.1 hc
    exact e.2.notMem_code.1
  · intro c hc
    obtain ⟨e, _, rfl⟩ := List.mem_map.1 hc
    exact e.2.notMem_code.2

theorem signature_eq_iff {f f' : Frame} (hf : f.edges.Ordered) (hf' : f'.edges.Ordered) :
    f.signature = f'.signature ↔ f.edges.abridged = f'.edges.abridged := by
  have hcodes : ∀ f : Frame, f.edges.Ordered →
      ∀ x ∈ f.edges.abridged.zipIdx.map Prod.swap, Codes x.2 := by
    intro f hf x hx
    obtain ⟨y, hy, rfl⟩ := List.mem_map.1 hx
    exact codes_of_ordered hf y.1 (List.fst_mem_of_mem_zipIdx hy)
  rw [signature_eq, signature_eq]
  constructor
  · intro h
    have hswapped := legible_numberedSignature.join_inj numberedSignature_ne_nil (hcodes f hf)
      (hcodes f' hf') h
    have hnumbered := (List.map_inj_right Prod.swap_injective).1 hswapped
    rw [← List.zipIdx_map_fst 0 f.edges.abridged, hnumbered, List.zipIdx_map_fst]
  · intro h
    rw [h]

variable {g g' : Graph}

theorem getElem?_abridged (i : Fin (ofGraph g).nodes.size) :
    (ofGraph g).edges.abridged[i.val]? =
      some (((ofGraph g).edges.get i).map fun e => (e.1.val, code e.2)) := by
  rw [Adjacency.abridged, List.getElem?_map, Vector.getElem?_toList]
  rw [Vector.getElem?_eq_getElem i.isLt]
  rfl

theorem mem_abridged (hg : g.WellFormed) (i j : Nat) (text : String) :
    (j, text) ∈ ((ofGraph g).edges.abridged[i]?).getD [] ↔
      (g.levelBetween? i j).map code = some text := by
  have hsize := size_ofGraph hg
  constructor
  · intro h
    by_cases hi : i < (ofGraph g).nodes.size
    · rw [getElem?_abridged ⟨i, hi⟩, Option.getD_some] at h
      obtain ⟨e, he, heq⟩ := List.mem_map.1 h
      obtain ⟨rfl, rfl⟩ := Prod.mk.inj heq
      rw [mem_edges_ofGraph, ← levelBetween?_node] at he
      rw [he, Option.map_some]
    · rw [List.getElem?_eq_none (by rw [Adjacency.length_abridged]; omega)] at h
      cases h
  · intro h
    obtain ⟨l, hl, rfl⟩ := Option.map_eq_some_iff.1 h
    have hij : i < g.size ∧ j < g.size := by
      by_contra hout
      rw [Graph.levelBetween?_eq_none hg hout] at hl
      cases hl
    rw [← hsize] at hij
    rw [getElem?_abridged ⟨i, hij.1⟩, Option.getD_some]
    refine List.mem_map.2 ⟨(⟨j, hij.2⟩, l), ?_, rfl⟩
    rw [mem_edges_ofGraph, ← levelBetween?_node]
    exact hl

theorem abridged_eq_iff_codes (hg : g.WellFormed) (hg' : g'.WellFormed) :
    (ofGraph g).edges.abridged = (ofGraph g').edges.abridged ↔
      g.size = g'.size ∧
        ∀ i j, (g.levelBetween? i j).map code = (g'.levelBetween? i j).map code := by
  constructor
  · intro h
    constructor
    · rw [← size_ofGraph hg, ← size_ofGraph hg', ← Adjacency.length_abridged (ofGraph g).edges, h,
        Adjacency.length_abridged]
    · intro i j
      apply Option.ext
      intro text
      rw [← mem_abridged hg, h, mem_abridged hg']
  · rintro ⟨hsize, hcodes⟩
    have hlength : (ofGraph g).edges.abridged.length = (ofGraph g').edges.abridged.length := by
      rw [Adjacency.length_abridged, Adjacency.length_abridged, size_ofGraph hg, size_ofGraph hg',
        hsize]
    apply List.ext_getElem hlength
    intro i hi hi'
    apply (codes_of_ordered (ordered_ofGraph g) _ (List.getElem_mem hi)).ext_mem
      (codes_of_ordered (ordered_ofGraph g') _ (List.getElem_mem hi'))
    rintro ⟨j, text⟩
    have hleft := mem_abridged hg i j text
    have hright := mem_abridged hg' i j text
    rw [List.getElem?_eq_getElem hi, Option.getD_some] at hleft
    rw [List.getElem?_eq_getElem hi', Option.getD_some] at hright
    rw [hleft, hright, hcodes]

/-- Where the coordinate sets of all levels have members, codes are the same if and only if
levels are similar. -/
theorem map_code_eq_iff {o o' : Option Level} (h : ∀ l ∈ o, l.Over CoordinateSet.Filled)
    (h' : ∀ l ∈ o', l.Over CoordinateSet.Filled) :
    o.map code = o'.map code ↔ Option.Rel Level.Similar o o' := by
  cases o with
  | none => cases o' <;> simp
  | some l =>
    cases o' with
    | none => simp
    | some m => simp [Level.code_eq_iff (h l rfl) (h' m rfl)]

end Frame

theorem Graph.Stores.levelBetween? {P : Level → Prop} {g : Graph} (h : g.Stores P) (i j : Nat) :
    ∀ l ∈ g.levelBetween? i j, P l := by
  intro l hl
  obtain ⟨u, _, hrest⟩ := Option.bind_eq_some_iff.1 hl
  obtain ⟨v, _, hlevel⟩ := Option.bind_eq_some_iff.1 hrest
  exact h u v l hlevel

/-- Signatures are the same where there are as many variables and, number by number, the
same edges with similar levels. -/
theorem signatures_identify_similar_levels {g g' : Graph}
    {as as' : List (Variable × List (Variable × Level))}
    (hg : Graph.ofAdditions as = .ok g) (hg' : Graph.ofAdditions as' = .ok g')
    (hgiven : ∀ a ∈ as, ∀ e ∈ a.2, e.2.Over CoordinateSet.Filled)
    (hgiven' : ∀ a ∈ as', ∀ e ∈ a.2, e.2.Over CoordinateSet.Filled) :
    (Frame.ofGraph g).signature = (Frame.ofGraph g').signature ↔
      g.size = g'.size ∧
        ∀ i j, Option.Rel Level.Similar (g.levelBetween? i j) (g'.levelBetween? i j) := by
  have hwf := (Graph.Built.of_additions hg).wellFormed
  have hwf' := (Graph.Built.of_additions hg').wellFormed
  have hlasting := Graph.lasting_over CoordinateSet.stable_filled
  have hstores := Graph.stores_of_given hlasting hg hgiven
  have hstores' := Graph.stores_of_given hlasting hg' hgiven'
  rw [Frame.signature_eq_iff (Frame.ordered_ofGraph g) (Frame.ordered_ofGraph g'),
    Frame.abridged_eq_iff_codes hwf hwf']
  simp only [Frame.map_code_eq_iff (hstores.levelBetween? _ _) (hstores'.levelBetween? _ _)]

namespace Twins

def linkage (area : CoordinateSet) : Linkage :=
  ⟨.singleton (.ofStored [.single (-7), .single 3]) ⟨.single 1, true⟩, area, area⟩

def additions (names : Nat → String) (area : CoordinateSet) (causes : Causes) :
    List (Variable × List (Variable × Level)) :=
  let node (i : Nat) : Variable := ⟨names i, names i, .local⟩
  [(node 0, [(node 1, .dependent (linkage area)), (node 2, .delayed causes)])]

def first : List (Variable × List (Variable × Level)) :=
  additions (fun i => ["a", "b", "c"].getD i "") .wildcard (.single "cycle")

def second : List (Variable × List (Variable × Level)) :=
  additions (fun i => ["x", "y", "z"].getD i "") .unmodified (.ofList ["loop", "call"])

def firstGraph : Graph := (Graph.ofAdditions first).toOption.getD .empty

def secondGraph : Graph := (Graph.ofAdditions second).toOption.getD .empty

example : (Frame.ofGraph firstGraph).signature = "0(1:-7;3M-2-1M;2:D)1(0:1M-2--7;3M)2(0:D)" := by
  cbv

example : (Frame.ofGraph secondGraph).signature = (Frame.ofGraph firstGraph).signature := by
  cbv

end Twins

theorem signatures_identify_similar_levels_twins :
    Graph.ofAdditions Twins.first = .ok Twins.firstGraph ∧
      Graph.ofAdditions Twins.second = .ok Twins.secondGraph ∧
      (∀ a ∈ Twins.first, ∀ e ∈ a.2, e.2.Over CoordinateSet.Filled) ∧
      (∀ a ∈ Twins.second, ∀ e ∈ a.2, e.2.Over CoordinateSet.Filled) ∧
      ((Frame.ofGraph Twins.firstGraph).signature = (Frame.ofGraph Twins.secondGraph).signature ↔
        Twins.firstGraph.size = Twins.secondGraph.size ∧
          ∀ i j, Option.Rel Level.Similar (Twins.firstGraph.levelBetween? i j)
            (Twins.secondGraph.levelBetween? i j)) :=
  have hfirst : Graph.ofAdditions Twins.first = .ok Twins.firstGraph := rfl
  have hsecond : Graph.ofAdditions Twins.second = .ok Twins.secondGraph := rfl
  have hgiven : ∀ a ∈ Twins.first, ∀ e ∈ a.2, e.2.Over CoordinateSet.Filled := by decide
  have hgiven' : ∀ a ∈ Twins.second, ∀ e ∈ a.2, e.2.Over CoordinateSet.Filled := by decide
  ⟨hfirst, hsecond, hgiven, hgiven',
    signatures_identify_similar_levels hfirst hsecond hgiven hgiven'⟩

end LinkClosure
