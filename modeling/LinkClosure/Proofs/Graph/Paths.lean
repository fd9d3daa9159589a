import LinkClosure.Proofs.Graph.Built
import Mathlib.Data.List.Perm.Subperm

/-!
# Paths over stored edges

A path starts at a variable and follows stored edges; what counts of it are the
levels that it meets. A path that comes back to one of its variables can be cut
short there, and the shorter path meets some of the same levels and no others.
So every path can be replaced by one with fewer edges than the graph has
variables.
-/

set_option autoImplicit false

namespace LinkClosure

namespace Graph

/-- The variables of a path from `s` and the levels it meets, both from the last one
back to the first. -/
inductive Path (g : Graph) (s : Variable) : List Variable → List Level → Prop
  | start : g.Path s [s] []
  | step {u v : Variable} {us : List Variable} {ls : List Level} {l : Level} :
      g.Path s (u :: us) ls → g.level? u v = some l → g.Path s (v :: u :: us) (l :: ls)

def Leads (g : Graph) (s v : Variable) (ls : List Level) : Prop := ∃ us, g.Path s (v :: us) ls

variable {g : Graph} {s u v w : Variable} {vs : List Variable} {ls : List Level} {l : Level}

theorem leads_self (g : Graph) (s : Variable) : g.Leads s s [] := ⟨[], .start⟩

theorem Leads.step (h : g.Leads s u ls) (hl : g.level? u v = some l) : g.Leads s v (l :: ls) := by
  obtain ⟨us, h⟩ := h
  exact ⟨u :: us, .step h hl⟩

theorem Leads.induction {motive : (v : Variable) → (ls : List Level) → g.Leads s v ls → Prop}
    (start : motive s [] (leads_self g s))
    (step : ∀ u v ls l (hu : g.Leads s u ls) (hl : g.level? u v = some l),
      motive u ls hu → motive v (l :: ls) (hu.step hl))
    (h : g.Leads s v ls) : motive v ls h := by
  -- A path always has a last variable, so its variables may be any list here.
  have hpath : ∀ vs ls, g.Path s vs ls → ∃ h : g.Leads s (vs.headD s) ls, motive _ ls h := by
    intro vs ls h
    induction h with
    | start => exact ⟨leads_self g s, start⟩
    | step _ hl ih =>
      obtain ⟨hu, hmotive⟩ := ih
      exact ⟨hu.step hl, step _ _ _ _ hu hl hmotive⟩
  obtain ⟨us, h⟩ := h
  exact (hpath _ _ h).2

theorem Path.length (h : g.Path s vs ls) : vs.length = ls.length + 1 := by
  induction h with
  | start => rfl
  | step _ _ ih => rw [List.length_cons, ih, List.length_cons]

theorem Path.contains (hg : g.WellFormed) (hs : g.contains s = true) (h : g.Path s vs ls) :
    ∀ v ∈ vs, g.contains v = true := by
  induction h with
  | start => simpa using hs
  | step _ hl ih => exact List.forall_mem_cons.2 ⟨hg.contains_target _ _ _ hl, ih⟩

theorem Leads.contains (hg : g.WellFormed) (hs : g.contains s = true) (h : g.Leads s v ls) :
    g.contains v = true := by
  obtain ⟨us, h⟩ := h
  exact h.contains hg hs v List.mem_cons_self

theorem Leads.stored (h : g.Leads s v ls) : ∀ l ∈ ls, ∃ u w, g.level? u w = some l := by
  induction h using Leads.induction with
  | start =>
    intro l hl
    cases hl
  | step u v ls l _ hl ih => exact List.forall_mem_cons.2 ⟨⟨u, v, hl⟩, ih⟩

theorem Leads.trans {ks : List Level} (h : g.Leads s u ls) (h' : g.Leads u v ks) :
    g.Leads s v (ks ++ ls) := by
  induction h' using Leads.induction with
  | start => exact h
  | step w v ks l _ hl ih => exact ih.step hl

def Symmetric (g : Graph) : Prop := ∀ u v, g.level? u v = g.level? v u

theorem Leads.symm (hsym : g.Symmetric) (h : g.Leads s v ls) : g.Leads v s ls.reverse := by
  induction h using Leads.induction with
  | start => exact leads_self g s
  | step u v ls l _ hl ih =>
    have hback : g.level? v u = some l := (hsym v u).trans hl
    rw [List.reverse_cons]
    exact ((leads_self g v).step hback).trans ih

theorem Path.cut (h : g.Path s vs ls) (hw : w ∈ vs) :
    ∃ us ls', g.Path s (w :: us) ls' ∧ (w :: us) <:+ vs ∧ ls' <:+ ls := by
  induction h with
  | start =>
    obtain rfl := List.mem_singleton.1 hw
    exact ⟨[], [], .start, List.suffix_rfl, List.suffix_rfl⟩
  | @step u v us ls l hu hl ih =>
    by_cases hwv : w = v
    · subst hwv
      exact ⟨u :: us, l :: ls, .step hu hl, List.suffix_rfl, List.suffix_rfl⟩
    · obtain ⟨us', ls', hpath, hvs, hls⟩ := ih ((List.mem_cons.1 hw).resolve_left hwv)
      exact ⟨us', ls', hpath, hvs.trans (List.suffix_cons v _), hls.trans (List.suffix_cons l _)⟩

/-- Every path has one without repetition to the same end, with some of its levels. -/
theorem Path.exists_nodup (h : g.Path s vs ls) :
    ∃ us ls', g.Path s (vs.headD s :: us) ls' ∧ (vs.headD s :: us).Nodup ∧ ls'.Sublist ls := by
  induction h with
  | start => exact ⟨[], [], .start, List.pairwise_singleton _ s, .slnil⟩
  | @step u v us ls l hu hl ih =>
    obtain ⟨us', ls', hpath, hnodup, hsub⟩ := ih
    by_cases hv : v ∈ u :: us'
    · obtain ⟨us'', ls'', hcut, hvs, hls⟩ := hpath.cut hv
      exact ⟨us'', ls'', hcut, hnodup.sublist hvs.sublist, (hls.sublist.trans hsub).cons l⟩
    · exact ⟨u :: us', l :: ls', .step hpath hl, List.nodup_cons.2 ⟨hv, hnodup⟩, hsub.cons_cons l⟩

theorem Leads.exists_short (hg : g.WellFormed) (hs : g.contains s = true) (h : g.Leads s v ls) :
    ∃ ls', g.Leads s v ls' ∧ ls'.Sublist ls ∧ ls'.length < g.size := by
  obtain ⟨us, h⟩ := h
  obtain ⟨us', ls', hpath, hnodup, hsub⟩ := h.exists_nodup
  refine ⟨ls', ⟨us', hpath⟩, hsub, ?_⟩
  have hmem : (v :: us') ⊆ g.order := by
    intro w hw
    exact (hg.mem_order w).2 (hpath.contains hg hs w hw)
  have hle : (v :: us').length ≤ g.order.length := (hnodup.subperm hmem).length_le
  have hlength := hpath.length
  show ls'.length < g.order.length
  simp only [List.headD_cons] at hlength
  omega

end Graph

end LinkClosure
