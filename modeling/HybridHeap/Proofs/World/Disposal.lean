import HybridHeap.Proofs.World.Errands
import HybridHeap.Proofs.World.Muted

/-!
Chores are made of errands: whatever a heap does to give up references that are counted is
a sequence of errands, and so is a chore, as long as it starts no collection. So it does not
matter for what is left in which order chores are done, nor in which order those that they
give rise to are (`World.Disposes.unique`).
-/

namespace HybridHeap

open Relation (ReflTransGen)

/-- A change of one entry is up to the item that it changes. -/
theorem LinkedMap.modify_congr {κ α : Type} [Ord κ] [Std.TransOrd κ] [Std.LawfulEqOrd κ]
    {m : LinkedMap κ α} {k : κ} {f g : α → α} (h : ∀ a, m.find? k = some a → f a = g a) :
    m.modify k f = m.modify k g := by
  simp only [LinkedMap.modify]
  congr 1
  apply Std.ExtTreeMap.ext_getElem?
  intro j
  rw [Std.ExtTreeMap.getElem?_modify, Std.ExtTreeMap.getElem?_modify]
  split
  · rename_i hj
    rw [Std.compare_eq_iff_eq] at hj
    subst hj
    cases he : m.entries[k]? with
    | none => rfl
    | some e =>
        have hfg : f e.item = g e.item := h e.item (by rw [find?, he]; rfl)
        simp only [Option.map_some, hfg]
  · rfl

namespace Heap

variable {c : CellId} {cell : Cell}

/-- The step of a release that frees a cell. -/
theorem yield_of_bury {r buried : Reclamation} (hf : r.heap.find? c = some cell)
    (hn : cell.count = 1) (hb : r.bury c cell = .ok buried) :
    r.heap.yield c = { buried.heap with
      counters := { buried.heap.counters with
        eagerFrees := buried.heap.counters.eagerFrees + 1 } } := by
  have hlast := last?_eq_some.mpr ⟨hf, hn⟩
  unfold Reclamation.bury at hb
  split at hb
  · rename_i objects hr
    cases hb
    simp only [yield, hlast, hr]
  · cases hb

/-- The step of a release that lowers a count. -/
theorem yield_of_shared {h : Heap} (hf : h.find? c = some cell) {n : Nat}
    (hn : cell.count = n + 2) :
    h.last? c = none ∧ h.yield c = h.modifyCell c fun cell => { cell with count := n + 1 } := by
  have hlast : h.last? c = none := by
    have hne : cell.count ≠ 1 := by omega
    rw [last?, hf, Option.filter_some_neg (by simpa using hne)]
  refine ⟨hlast, ?_⟩
  have hobjects : h.objects.modify c (fun cell => { cell with count := cell.count - 1 }) =
      h.objects.modify c fun cell => { cell with count := n + 1 } := by
    refine LinkedMap.modify_congr fun a ha => ?_
    rw [show h.objects.find? c = some cell from hf, Option.some.injEq] at ha
    subst ha
    rw [hn]
    rfl
  simp only [yield, hlast, modifyCell, hobjects]

/-- An owned root has its entry on the root list. -/
theorem Listed.strike_eq {h : Heap} {r : Root} {held : List Root} {write : Option Writing}
    (hl : h.Listed (r :: held) write) : h.strike r = h.unroot r := by
  have hm : r.entry ∈ h.roots.toList := hl.mem_entries List.mem_cons_self
  exact if_pos (hl.sound.find?_eq_some_iff.mpr hm)

end Heap

namespace World

variable {w : World} {i : HeapId} {h : Heap}

theorem Sound.setHeap (hs : w.Sound) (i : HeapId) (hh : h.Sound) : (w.setHeap i h).Sound := by
  intro j k hj
  rw [heap?_setHeap] at hj
  split at hj
  · split at hj
    · cases hj
      exact hh
    · cases hj
  · exact hs j k hj

theorem Balanced.sound {held : List Holding} {write : Option Writing}
    (hb : w.Balanced held write) : w.Sound :=
  fun i h hi => ⟨(hb.heap i h hi).counted.sound, (hb.heap i h hi).listed.sound⟩

end World

namespace Errands

variable {w w' : World} {i : HeapId} {h : Heap} {a a' rest : Multiset Errand}

/-- References to cells of the heap `i`. -/
def refs (i : HeapId) (cells : List CellId) : Multiset Errand :=
  (cells.map fun c => Errand.on i (.ref c) : List Errand)

/-- The shares that freed cells still hold. -/
def shares (graveyard : List Freed) : Multiset Errand :=
  ((graveyard.filterMap fun freed => freed.value.env?).map Errand.share : List Errand)

@[simp] theorem refs_nil (i : HeapId) : refs i [] = 0 := rfl

theorem refs_cons (i : HeapId) (c : CellId) (cells : List CellId) :
    refs i (c :: cells) = .on i (.ref c) ::ₘ refs i cells := rfl

theorem refs_append (i : HeapId) (cells cells' : List CellId) :
    refs i (cells ++ cells') = refs i cells + refs i cells' := by
  simp [refs]

theorem refs_reverse (i : HeapId) (cells : List CellId) :
    refs i cells.reverse = refs i cells :=
  Multiset.coe_eq_coe.mpr ((List.reverse_perm cells).map _)

@[simp] theorem shares_nil : shares [] = 0 := rfl

theorem shares_cons (freed : Freed) (graveyard : List Freed) :
    shares (freed :: graveyard) =
      (freed.value.env?.toList.map Errand.share : List Errand) + shares graveyard := by
  simp only [shares, List.filterMap_cons]
  cases freed.value.env? <;> rfl

theorem shares_payloads (r : Reclamation) :
    (r.payloads.map Chore.errand : List Errand) = shares r.graveyard := by
  rw [Reclamation.payloads, List.map_map, shares, List.filterMap_reverse]
  exact Multiset.coe_eq_coe.mpr ((List.reverse_perm _).map _)

theorem legacy_eq (i : HeapId) (cell : Cell) :
    (Heap.legacy i cell : Multiset Errand) =
      refs i cell.value.targets + (cell.value.env?.toList.map Errand.share : List Errand) := by
  rw [Heap.legacy, ← Multiset.coe_add]
  rfl

/-- The errands that are not run do not matter. -/
theorem Steps.frame (hs : Steps (w, a) (w', a')) (rest : Multiset Errand) :
    Steps (w, a + rest) (w', a' + rest) := by
  refine ReflTransGen.lift (fun p : World × Multiset Errand => (p.1, p.2 + rest))
    (fun p q hstep => ?_) _ _ hs
  obtain @⟨w, x, xs, hw⟩ := hstep
  have hrun : Step (w, x ::ₘ (xs + rest)) (w.run x, (w.sequel x : Multiset Errand) + (xs + rest)) :=
    .run hw
  rw [← Multiset.cons_add, ← add_assoc] at hrun
  exact hrun

/-- An errand on a heap, whatever the heap is. -/
theorem step_on (hi : w.heap? i = some h) (hw : w.Sound) {k : Heap} (hk : k.Sound)
    (x : Heap.Errand) (rest : Multiset Errand) :
    Step (w.setHeap i k, .on i x ::ₘ rest)
      (w.setHeap i (k.run x), (k.sequel i x : Multiset Errand) + rest) := by
  have hstep : Step (w.setHeap i k, .on i x ::ₘ rest)
      ((w.setHeap i k).run (.on i x),
        ((w.setHeap i k).sequel (.on i x) : Multiset Errand) + rest) :=
    .run (hw.setHeap i hk)
  have hk' : (w.setHeap i k).heap? i = some k := World.heap?_setHeap_self hi k
  simp only [World.run, World.modifyHeap, World.sequel, hk', World.setHeap_setHeap,
    Option.toList_some, List.flatMap_singleton] at hstep
  exact hstep

section Releases

variable {r : Reclamation} {work cells held : List CellId}

/-- A release gives up the references on its worklist and leaves the shares of the cells
that it frees. -/
theorem steps_release (hi : w.heap? i = some h) (hw : w.Sound) (hr : r.heap.roots.Sound)
    (hc : r.heap.Counted (work ++ held)) :
    Steps (w.setHeap i r.heap, refs i work + shares r.graveyard)
      (w.setHeap i (r.release work).heap, shares (r.release work).graveyard) := by
  -- as in `Heap.Counted.release`, every reference on the worklist finds its cell alive
  fun_induction Reclamation.release r work with
  | case1 r =>
      rw [refs_nil, zero_add]
      exact .refl
  | case2 r c work hf ih =>
      obtain ⟨cell, hcell⟩ := hc.live_of_mem List.mem_cons_self
      simp [hf] at hcell
  | case3 r c work cell hf hn ih =>
      have := hc.positive c cell hf
      omega
  | case4 r c work cell hf hn f hb ih =>
      obtain ⟨objects, -, -, he⟩ := r.bury_eq hc hf
      rw [he] at hb
      cases hb
  | case5 r c work cell hf hn buried hb freed ih =>
      have hstep := step_on hi hw ⟨hc.sound, hr⟩ (.ref c) (refs i work + shares r.graveyard)
      have hyield := Heap.yield_of_bury hf hn hb
      obtain ⟨objects, hs, hl, he⟩ := r.bury_eq hc hf
      rw [he] at hb
      cases hb
      have hfree := hc.free hf hn hs hl
      have hperm : (cell.value.targets ++ (work ++ held)).Perm
          ((cell.value.targets.reverse ++ work) ++ held) := by
        rw [List.append_assoc]
        exact (List.reverse_perm _).symm.append_right _
      have hsteps := ih hr ((hfree.perm hperm).congr rfl)
      -- the targets join the worklist, the share is left
      have hbag : (r.heap.sequel i (.ref c) : Multiset Errand) +
            (refs i work + shares r.graveyard) =
          refs i (cell.value.targets.reverse ++ work) +
            shares (grave (c, cell) :: r.graveyard) := by
        rw [Heap.sequel, Heap.last?_eq_some.mpr ⟨hf, hn⟩, Option.toList_some,
          List.flatMap_singleton, legacy_eq, refs_append, refs_reverse, shares_cons, grave,
          Value.env?_nulled]
        exact add_add_add_comm _ _ _ _
      rw [hbag, Heap.run, hyield] at hstep
      rw [refs_cons, Multiset.cons_add]
      exact .head hstep hsteps
  | case6 r c work cell hf n hn ih =>
      have hstep := step_on hi hw ⟨hc.sound, hr⟩ (.ref c) (refs i work + shares r.graveyard)
      obtain ⟨hlast, hyield⟩ := Heap.yield_of_shared hf hn
      rw [Heap.sequel, hlast, Option.toList_none, List.flatMap_nil, Multiset.coe_nil, zero_add,
        Heap.run, hyield] at hstep
      rw [refs_cons, Multiset.cons_add]
      exact .head hstep (ih hr (hc.lower hf hn))

theorem steps_releaseEach (hi : w.heap? i = some h) (hw : w.Sound) (hr : r.heap.roots.Sound)
    (hc : r.heap.Counted (cells ++ held)) :
    Steps (w.setHeap i r.heap, refs i cells + shares r.graveyard)
      (w.setHeap i (r.releaseEach cells).heap, shares (r.releaseEach cells).graveyard) := by
  induction cells generalizing r with
  | nil =>
      rw [refs_nil, zero_add]
      exact .refl
  | cons c cells ih =>
      have hfirst : r.heap.Counted ([c] ++ (cells ++ held)) := hc
      obtain ⟨hcount, hthin⟩ := hfirst.release
      have hstep := (steps_release hi hw hr hfirst).frame (refs i cells)
      have hrest := ih (r := r.release [c]) (by rw [hthin.roots]; exact hr) hcount
      rw [add_comm (refs i cells)] at hrest
      have hbag : refs i (c :: cells) + shares r.graveyard =
          refs i [c] + shares r.graveyard + refs i cells := by
        rw [← List.singleton_append, refs_append, add_right_comm]
      rw [hbag]
      exact hstep.trans hrest

/-- Draining is the errand of the queue. -/
theorem steps_drain (hi : w.heap? i = some h) (hw : w.Sound) (hr : r.heap.roots.Sound)
    (hc : r.heap.Counted (r.heap.deferred ++ held)) :
    Steps (w.setHeap i r.heap, .on i .queue ::ₘ shares r.graveyard)
      (w.setHeap i r.drain.heap, shares r.drain.graveyard) := by
  have hstep := step_on hi hw ⟨hc.sound, hr⟩ .queue (shares r.graveyard)
  have hc' : (r.map fun h => { h with deferred := [] }).heap.Counted
      (r.heap.deferred ++ held) := hc.congr rfl
  exact .head hstep (steps_releaseEach (r := r.map fun h => { h with deferred := [] }) hi hw hr hc')

end Releases

/-- To drop a root like a slot is the errand of its entry. -/
theorem steps_dropAnchor {r : Root} {held : List Root} {write : Option Writing}
    (hi : w.heap? i = some h) (hw : w.Sound) (hb : h.Balanced (r :: held) write) :
    Steps (w, {.on i (.root r)})
      (w.setHeap i (h.dropAnchor r).heap, shares (h.dropAnchor r).graveyard) := by
  obtain ⟨roots, hunroot, hl⟩ := hb.listed.unroot
  have hcounted : (h.unroot r).start.heap.Counted
      ([r.cell] ++ (h.deferred ++ (countedRoots held write).map Root.cell)) := by
    rw [hunroot]
    refine (hb.counted.perm ?_).congr rfl
    exact List.perm_append_comm.cons r.cell
  have hroots : (h.unroot r).start.heap.roots.Sound := by
    rw [hunroot]
    exact hl.sound
  obtain ⟨hcount, hthin⟩ := hcounted.release
  -- the entry goes, then the reference, then what was queued before
  have hentry := step_on hi hw ⟨hb.counted.sound, hb.listed.sound⟩ (.root r) 0
  have hreference := (steps_release hi hw hroots hcounted).frame {.on i .queue}
  have hreleased : ((h.unroot r).start.release [r.cell]).heap.Counted
      (((h.unroot r).start.release [r.cell]).heap.deferred ++
        (countedRoots held write).map Root.cell) := by
    rw [Reclamation.deferred_release, hunroot]
    rw [hunroot] at hcount
    exact hcount
  have hqueue := steps_drain hi hw (hthin.roots ▸ hroots) hreleased
  rw [World.setHeap_self hi, Heap.run, hb.listed.strike_eq] at hentry
  rw [add_comm (shares _), Multiset.singleton_add] at hreference
  have hbag : ((h.sequel i (.root r) : List Errand) : Multiset Errand) + 0 =
      refs i [r.cell] + shares [] + {.on i .queue} := rfl
  rw [hbag] at hentry
  exact .head hentry (hreference.trans hqueue)

end Errands

namespace World

open Errands (Steps steps_dropAnchor shares_payloads)

variable {w w' : World} {c : Chore} {chores rest : List Chore} {held : List Holding}
  {write : Option Writing}

/-- The world without what was reported. -/
def calm (w : World) : World :=
  { w with events := [] }

theorem leave_calm (w : World) (e : EnvId) :
    w.calm.leave e = ((w.leave e).1.calm, (w.leave e).2) := by
  have henvs : w.calm.envs = w.envs := rfl
  simp only [leave, henvs]
  split
  · rfl
  · split <;> rfl

/-- A guarded world stays guarded while chores are done. -/
theorem Guarded.doChore (hg : w.Guarded) (c : Chore) : (w.doChore c).1.Guarded := by
  intro i h hi
  obtain ⟨h₀, hi₀, hchanges⟩ := (w.turn_doChore c).exists_of_some_right hi
  exact hchanges.heeds.guarded (hg i h₀ hi₀)

/-- A chore that starts no collection is made of errands. -/
theorem steps_doChore (hb : w.Balanced (c.holding :: held) write) (hg : w.Guarded) :
    Steps (w.calm, {c.errand})
      ((w.doChore c).1.calm, ((w.doChore c).2.map Chore.errand : List Errand)) := by
  have hanchor : ∀ r : Root, w.Balanced (.root r :: held) write →
      Steps (w.calm, {.on r.cell.heap (.root r)})
        ((w.doChore (.dropAnchor r)).1.calm,
          ((w.doChore (.dropAnchor r)).2.map Chore.errand : List Errand)) := by
    intro r hb
    obtain ⟨h, hi, -⟩ := hb.live List.mem_cons_self
    have hi' : w.calm.heap? r.cell.heap = some h := hi
    have hsteps := steps_dropAnchor hi' hb.sound (hb.heap_of_root hi)
    rw [← shares_payloads] at hsteps
    simp only [doChore, reclaim, hi]
    exact hsteps
  cases c with
  | dropRoot r =>
      obtain ⟨h, hi, -⟩ := hb.live List.mem_cons_self
      have hsame : w.doChore (.dropRoot r) = w.doChore (.dropAnchor r) := by
        simp only [doChore, reclaim, hi, Heap.dropRoot_of_guarded (hg _ h hi)]
      rw [hsame]
      exact hanchor r hb
  | dropAnchor r => exact hanchor r hb
  | leave e =>
      have hstep : Errands.Step (w.calm, {.share e})
          (w.calm.run (.share e), (w.calm.sequel (.share e) : Multiset Errand) + 0) :=
        .run hb.sound
      simp only [run, sequel, leave_calm, add_zero] at hstep
      exact .single hstep

/-- `w.Disposes chores w'` says that `w'` is left when the chores and all that they give
rise to have been done in some order, whichever is next at any time. -/
inductive Disposes : World → List Chore → World → Prop
  | done (w : World) : Disposes w [] w
  | next {w w' : World} {chores rest : List Chore} {c : Chore} (hp : chores.Perm (c :: rest))
      (hd : Disposes (w.doChore c).1 ((w.doChore c).2 ++ rest) w') : Disposes w chores w'

namespace Disposes

theorem settle (w : World) (chores : List Chore) : w.Disposes chores (w.settle chores) := by
  fun_induction World.settle w chores with
  | case1 w => exact .done w
  | case2 w c rest ih => exact .next (.refl _) ih

theorem perm {chores' : List Chore} (hd : w.Disposes chores w') (hp : chores'.Perm chores) :
    w.Disposes chores' w' := by
  cases hd with
  | done =>
      rw [hp.eq_nil]
      exact .done w
  | next hp' hd => exact .next (hp.trans hp') hd

/-- A disposal is made of errands. -/
theorem steps (hd : w.Disposes chores w')
    (hb : w.Balanced (chores.map Chore.holding ++ held) write) (hg : w.Guarded) :
    Steps (w.calm, (chores.map Chore.errand : List Errand)) (w'.calm, 0) := by
  induction hd with
  | done w => exact .refl
  | @next w w' chores rest c hp hd ih =>
      have hb' : w.Balanced (c.holding :: (rest.map Chore.holding ++ held)) write :=
        hb.perm ((hp.map Chore.holding).append_right held)
      have hfirst := (steps_doChore hb' hg).frame (rest.map Chore.errand : List Errand)
      have hrest := ih (by
        rw [List.map_append, List.append_assoc]
        exact hb'.doChore) (hg.doChore c)
      have hbag : ((chores.map Chore.errand : List Errand) : Multiset Errand) =
          {c.errand} + (rest.map Chore.errand : List Errand) :=
        Multiset.coe_eq_coe.mpr (hp.map Chore.errand)
      rw [List.map_append, ← Multiset.coe_add] at hrest
      rw [hbag]
      exact hfirst.trans hrest

/-- However chores are disposed of, the same world is left but for what is reported. -/
theorem unique {chores' : List Chore} {w₁ w₂ : World} (hd₁ : w.Disposes chores w₁)
    (hd₂ : w.Disposes chores' w₂) (hp : chores.Perm chores')
    (hb : w.Balanced (chores.map Chore.holding ++ held) write) (hg : w.Guarded) :
    w₁.calm = w₂.calm := by
  exact Errands.unique (hd₁.steps hb hg) ((hd₂.perm hp).steps hb hg)

end Disposes

end World

end HybridHeap
