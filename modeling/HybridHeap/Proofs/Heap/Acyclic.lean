import Mathlib.Data.Fintype.Card
import Mathlib.Data.Set.Finite.List
import HybridHeap.Proofs.Heap.Fates

/-!
A heap without cycles needs no collector. Walking backwards from a cell along references
ends at a reference from outside the heap, unless it goes around in a cycle
(`exists_source_or_cycle`); so if the slots form no cycle, the roots reach everything that
still has a count, and a collection sweeps nothing.
-/

namespace HybridHeap

open Relation (ReflTransGen TransGen)

/-- In a finite graph in which every node is a source or has a predecessor, walking
backwards ends at a source or comes to a cycle. -/
theorem exists_source_or_cycle {α : Type} {r : α → α → Prop} {alive source : α → Prop}
    (hfinite : {a | alive a}.Finite)
    (hpred : ∀ a, alive a → source a ∨ ∃ b, alive b ∧ r b a) {a : α} (ha : alive a) :
    ∃ b, (source b ∨ TransGen r b b) ∧ ReflTransGen r b a := by
  by_contra hnone
  have hcycle : ∀ b, ReflTransGen r b a → ¬TransGen r b b := fun b hb hc =>
    hnone ⟨b, .inr hc, hb⟩
  let Ancestor := { b // alive b ∧ ReflTransGen r b a }
  have : Finite Ancestor := (hfinite.subset fun b hb => hb.1).to_subtype
  let before : Ancestor → Ancestor → Prop := fun x y => TransGen r x.1 y.1
  have : IsTrans Ancestor before := ⟨fun _ _ _ h h' => h.trans h'⟩
  have : Std.Irrefl before := ⟨fun x => hcycle x.1 x.2.2⟩
  have hwf : WellFounded before := Finite.wellFounded_of_trans_of_irrefl before
  -- a first ancestor would have to be a source
  have hempty : ∀ x : Ancestor, False := by
    intro x
    induction x using hwf.induction with
    | _ x ih =>
        obtain ⟨b, hb, hreach⟩ := x
        rcases hpred b hb with hs | ⟨c, hc, hr⟩
        · exact hnone ⟨b, .inl hs, hreach⟩
        · exact ih ⟨c, hc, .head hr hreach⟩ (.single hr)
  exact hempty ⟨a, ha, .refl⟩

namespace Heap

/-- A slot of the first cell refers to the second. -/
def SlotEdge (h : Heap) (c d : CellId) : Prop :=
  ∃ cell, h.find? c = some cell ∧ d ∈ cell.value.targets

/-- The slots of the live cells form no cycle. -/
def Acyclic (h : Heap) : Prop :=
  ∀ c, ¬TransGen h.SlotEdge c c

theorem Reached.of_edges {h : Heap} {c d : CellId} (hc : h.Reached c)
    (he : ReflTransGen h.SlotEdge c d) : h.Reached d := by
  induction he with
  | refl => exact hc
  | tail _ hs ih =>
      obtain ⟨cell, hf, hd⟩ := hs
      exact .slot ih hf hd

theorem finite_live {h : Heap} {held : List CellId} (hc : h.Counted held) :
    {c | h.Live c}.Finite := by
  refine (h.cells.map Prod.fst).finite_toSet.subset ?_
  rintro c ⟨cell, hf⟩
  exact List.mem_map_of_mem (f := Prod.fst) (hc.find?_eq_some_iff.mp hf)

/-- A counted cell is held from outside or referred to by a live cell. -/
theorem Counted.held_or_edge {h : Heap} {held : List CellId} (hc : h.Counted held) {c : CellId}
    (hl : h.Live c) : c ∈ held ∨ ∃ d, h.Live d ∧ h.SlotEdge d c := by
  obtain ⟨cell, hf⟩ := hl
  have hpos := hc.positive c cell hf
  have hcount := hc.count c
  rw [countOf_of_find? hf] at hcount
  by_cases hm : c ∈ held
  · exact .inl hm
  · rw [List.count_eq_zero.mpr hm] at hcount
    have hslot : c ∈ slotTargets h.cells := List.count_pos_iff.mp (by omega)
    obtain ⟨p, hp, ht⟩ := mem_slotTargets.mp hslot
    have hfp := hc.find?_eq_some_iff.mpr hp
    exact .inr ⟨p.1, ⟨p.2, hfp⟩, p.2, hfp, ht⟩

/-- Without cycles the roots reach every live cell. -/
theorem Acyclic.reached {h : Heap} {held : List CellId} (ha : h.Acyclic) (hc : h.Counted held)
    (hr : h.Rooted held) {c : CellId} (hl : h.Live c) : h.Reached c := by
  obtain ⟨b, hb, hpath⟩ := exists_source_or_cycle (finite_live hc)
    (fun _ hd => hc.held_or_edge hd) hl
  have hheld : b ∈ held := hb.resolve_right (ha b)
  exact Reached.of_edges (.source (hr.mem_roots b hheld)) hpath

end Heap

namespace Reclamation

variable {r : Reclamation} {held : List CellId}

/-- Nothing is freed from `r` to `r'`. -/
structure Spares (r r' : Reclamation) : Prop where
  cells : r'.heap.cells = r.heap.cells
  graveyard : r'.graveyard = r.graveyard
  swept : r'.heap.counters.swept = r.heap.counters.swept

/-- Where everything is reached a collection frees nothing. -/
theorem Collectable.spares_of_reached (h : r.Collectable held)
    (hall : ∀ c, r.heap.Live c → r.heap.Reached c) : r.Spares r.collect := by
  obtain ⟨traced, he⟩ := h.collect_of_reached hall
  rw [he]
  exact ⟨rfl, rfl, rfl⟩

/-- Without cycles a collection frees nothing. -/
theorem Collectable.spares_collect (h : r.Collectable held) (ha : r.heap.Acyclic) :
    r.Spares r.collect :=
  h.spares_of_reached fun _ hl => ha.reached h.counted h.rooted hl

theorem Collectable.spares_collectIfOver (h : r.Collectable held) (ha : r.heap.Acyclic) :
    r.Spares r.collectIfOver := by
  unfold Reclamation.collectIfOver
  dsimp only
  split
  · obtain ⟨hcells, hgraveyard, hswept⟩ :=
      (h.report (.triggered r.heap.objects.length r.heap.capacity)).spares_collect ha
    exact ⟨hcells, hgraveyard, hswept⟩
  · exact ⟨rfl, rfl, rfl⟩

/-- A collection that sweeps nothing frees nothing. -/
theorem Collectable.spares_of_unswept (h : r.Collectable held)
    (hs : r.collect.heap.counters.swept = r.heap.counters.swept) : r.Spares r.collect := by
  have hgarbage : r.heap.garbage = [] := by
    have hlength := h.exact_collect.swept
    exact List.length_eq_zero_iff.mp (by omega)
  refine h.spares_of_reached fun c hl => ?_
  obtain ⟨cell, hf⟩ := hl
  by_contra hr
  have hm : (c, cell) ∈ r.heap.garbage :=
    Heap.mem_garbage.mpr ⟨h.counted.find?_eq_some_iff.mp hf, hr⟩
  rw [hgarbage] at hm
  cases hm

theorem Collectable.spares_of_unswept_ifOver (h : r.Collectable held)
    (hs : r.collectIfOver.heap.counters.swept = r.heap.counters.swept) :
    r.Spares r.collectIfOver := by
  unfold Reclamation.collectIfOver at hs ⊢
  dsimp only at hs ⊢
  split at hs
  · rename_i hover
    rw [if_pos hover]
    obtain ⟨hcells, hgraveyard, hswept⟩ :=
      (h.report (.triggered r.heap.objects.length r.heap.capacity)).spares_of_unswept hs
    exact ⟨hcells, hgraveyard, hswept⟩
  · rename_i hover
    rw [if_neg hover]
    exact ⟨rfl, rfl, rfl⟩

/-- Freeing cells makes no cycles. -/
theorem Thins.acyclic {r' : Reclamation} {held' : List CellId} (ht : r.Thins r')
    (hc : r.heap.Counted held) (hc' : r'.heap.Counted held') (ha : r.heap.Acyclic) :
    r'.heap.Acyclic := by
  have hedge : ∀ c d, r'.heap.SlotEdge c d → r.heap.SlotEdge c d := by
    rintro c d ⟨cell, hf, hd⟩
    obtain ⟨old, hold, hv, -⟩ := ht.find?_of_find? hc hc' hf
    exact ⟨old, hold, hv ▸ hd⟩
  exact fun c h => ha c (TransGen.mono hedge _ _ h)

end Reclamation

theorem Heap.swept_dropAnchor (h : Heap) (r : Root) :
    (h.dropAnchor r).heap.counters.swept = h.counters.swept := by
  obtain ⟨counted, hf⟩ := h.frees_dropAnchor r
  rw [hf.swept]
  simp [Heap.start]

/-- Without cycles a dropped root may trigger a collection, but this sweeps nothing. -/
theorem Heap.Balanced.dropRoot_of_acyclic {h : Heap} {r : Root} {held : List Root}
    {write : Option Writing} (hb : h.Balanced (r :: held) write) (ha : h.Acyclic) :
    (h.dropRoot r).heap.counters.swept = h.counters.swept := by
  obtain ⟨hb₁, hd₁, ht₁⟩ := hb.dropAnchor
  have hunrooted : (h.unroot r).start.heap.Counted
      ((countedRoots (r :: held) write).map Root.cell ++ h.deferred) :=
    hb.counted.congr (Heap.objects_unroot h r)
  have ha₀ : (h.unroot r).start.heap.Acyclic := by
    have hedge : (h.unroot r).start.heap.SlotEdge = h.SlotEdge := by
      funext c d
      simp [Heap.SlotEdge, Heap.start, Heap.find?]
    simpa only [Heap.Acyclic, hedge] using ha
  have ha₁ := ht₁.acyclic hunrooted hb₁.counted ha₀
  show Counters.swept (if h.config.collectOnRelease then (h.dropAnchor r).collectIfOver
    else h.dropAnchor r).heap.counters = _
  split
  · exact ((hb₁.collectable hd₁).spares_collectIfOver ha₁).swept.trans (h.swept_dropAnchor r)
  · exact h.swept_dropAnchor r

end HybridHeap
