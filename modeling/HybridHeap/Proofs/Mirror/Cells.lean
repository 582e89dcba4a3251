import HybridHeap.Proofs.Mirror.World

/-!
Operations on cells, in a world and in a store. Each lemma starts from holdings with
what the operation takes over in front, and ends with what it hands out in front; the
outcomes in the world and in the store are the same but for roots.
-/

namespace HybridHeap

open Unmanaged (Store)

/-- Outcomes that are the same in the world and in the store; what comes out in the
world is owned from outside it. -/
inductive Obtained {α β : Type} (own : α → List Holding) (bare : α → β) (held : List Holding) :
    World × Except Failure α → Store × Except Failure β → Prop
  | ok {w : World} {a : α} {st : Store} (hm : Mirrored ⟨w, own a ++ held, none⟩ st) :
      Obtained own bare held (w, .ok a) (st, .ok (bare a))
  | error {w : World} {f : Failure} {st : Store} (hm : Mirrored ⟨w, held, none⟩ st) :
      Obtained own bare held (w, .error f) (st, .error f)

/-- Handles that come out. -/
abbrev ObtainedHandle := Obtained Handle.holdings Handle.target

/-- Outcomes that own nothing. -/
abbrev Performed := Obtained (fun _ : Unit => []) id

/-- A handle whose root is owned. -/
def Owned (held : List Holding) (h : Handle) : Prop :=
  ∀ r ∈ h, .root r ∈ held

theorem Owned.mono {held held' : List Holding} {h : Handle} (ho : Owned held h)
    (hs : held ⊆ held') : Owned held' h :=
  fun r hr => hs (ho r hr)

theorem owned_none (held : List Holding) : Owned held none :=
  fun _ hr => by cases hr

theorem owned_holdings (h : Handle) (held : List Holding) : Owned (h.holdings ++ held) h :=
  fun _ hr => List.mem_append_left _ (List.mem_map_of_mem (Option.mem_toList.mpr hr))

theorem owned_of_mem {hs : List Handle} {h : Handle} (hm : h ∈ hs) (held : List Holding) :
    Owned (hs.flatMap Handle.holdings ++ held) h := by
  intro r hr
  refine List.mem_append_left _ (List.mem_flatMap.mpr ⟨h, hm, ?_⟩)
  exact List.mem_map_of_mem (Option.mem_toList.mpr hr)

theorem holdings_pair (a b : Handle) : (Value.pair a b).holdings = a.holdings ++ b.holdings := by
  cases a <;> cases b <;> rfl

theorem holdings_vector (hs : List Handle) :
    (Value.vector hs.toArray).holdings = hs.flatMap Handle.holdings := by
  rw [Value.holdings, Value.anchors, Value.children, List.toList_toArray]
  induction hs with
  | nil => rfl
  | cons h hs ih =>
      rw [List.flatMap_cons, ← ih]
      cases h <;> rfl

theorem placed_vector (hs : List Handle) :
    (Value.vector hs.toArray).placed = .vector (hs.map Handle.target).toArray := by
  simp [Value.placed, Value.map]

theorem holdings_reverse_perm (hs : List Handle) :
    (hs.reverse.flatMap Handle.holdings).Perm (hs.flatMap Handle.holdings) :=
  (List.reverse_perm hs).flatMap_right _

/-- A value that can be read at a position has the reference there among its
references. -/
theorem mem_targets_of_get {v : Value Slot} {p : Position} {d : CellId}
    (h : v.get p = .ok (some d)) : d ∈ v.targets := by
  obtain ⟨l₁, l₂, hc, -⟩ := Value.children_replace h
  rw [Value.targets, hc]
  exact List.mem_filterMap.mpr ⟨some d, List.mem_append_right _ List.mem_cons_self, rfl⟩

theorem ownsAll_placed (i : HeapId) (v : Value Handle) :
    Store.ownsAll i v.placed = World.ownsAll i v := by
  rw [Store.ownsAll, Value.targets_placed, List.all_map, World.ownsAll]
  rfl

theorem map_holding_dropRoot (hs : List Handle) :
    (((hs.filterMap id).map Chore.dropRoot).map Chore.holding) = hs.flatMap Handle.holdings := by
  induction hs with
  | nil => rfl
  | cons h hs ih =>
      rw [List.flatMap_cons, ← ih]
      cases h <;> rfl

namespace Mirrored

variable {w : World} {st : Store} {held held' : List Holding} {write : Option Writing}
  {i : HeapId} {h : Handle}

theorem live_of_owned (hm : Mirrored ⟨w, held, write⟩ st) (ho : Owned held h) :
    ∀ c ∈ h.target, w.Live c := by
  intro c hc
  obtain ⟨r, hr, rfl⟩ := Option.map_eq_some_iff.mp hc
  exact hm.balanced.live (ho r hr)

theorem read (hm : Mirrored ⟨w, held, write⟩ st) (ho : Owned held h) :
    w.read h = st.read h.target :=
  hm.agrees.readSlot hm.balanced (hm.live_of_owned ho)

/-- What a live cell refers to is alive. -/
theorem live_of_child (hm : Mirrored ⟨w, held, write⟩ st) {c d : CellId} (hl : w.Live c)
    (hd : d ∈ (w.readCell c).targets) : w.Live d := by
  obtain ⟨heap, hi, cell, hf⟩ := hl
  have hread : w.readCell c = cell.value := by
    simp [World.readCell, hi, Heap.read, hf]
  rw [hread] at hd
  have hlive := (hm.balanced.heap _ heap hi).counted.live_of_target hf hd
  obtain ⟨hheap, -⟩ := hm.balanced.cells _ heap hi d hlive
  exact ⟨heap, hheap.symm ▸ hi, hlive⟩

theorem finish {r : Reclamation}
    (hm : Mirrored ⟨(w.commit i r).1, r.payloads.map Chore.holding ++ held, write⟩ st) :
    Mirrored ⟨w.finish i r, held, write⟩ st :=
  hm.settle

theorem dropAll {hs : List Handle}
    (hm : Mirrored ⟨w, hs.flatMap Handle.holdings ++ held, write⟩ st) :
    Mirrored ⟨w.dropAll hs, held, write⟩ st := by
  apply Mirrored.settle
  rwa [map_holding_dropRoot]

theorem drop (hm : Mirrored ⟨w, h.holdings ++ held, write⟩ st) :
    Mirrored ⟨w.drop h, held, write⟩ st := by
  apply Mirrored.dropAll
  rwa [List.flatMap_cons, List.flatMap_nil, List.append_nil]

theorem discard {v : Value Handle} (hm : Mirrored ⟨w, v.holdings ++ held, write⟩ st) :
    Mirrored ⟨w.discard v, held, write⟩ st := by
  apply Mirrored.settle
  rw [List.map_append, List.map_map, List.map_map]
  exact hm

theorem leaveEnv {e : EnvId} (hm : Mirrored ⟨w, .share e :: held, write⟩ st) :
    Mirrored ⟨w.leaveEnv e, held, write⟩ st := by
  have hchore : Mirrored ⟨w, [Chore.leave e].map Chore.holding ++ held, write⟩ st := hm
  exact hchore.settle

/-- A new root, for a slot that refers to a live cell or to none. -/
theorem root {s : Slot} (hm : Mirrored ⟨w, held, none⟩ st) (hl : ∀ c ∈ s, w.Live c) :
    (w.root s).2.target = s ∧ Mirrored ⟨(w.root s).1, (w.root s).2.holdings ++ held, none⟩ st := by
  cases s with
  | none => exact ⟨rfl, hm⟩
  | some c =>
      obtain ⟨heap, hi, hlive⟩ := hl c rfl
      obtain ⟨hcell, -, hcells, hconfig⟩ := (hm.balanced.heap _ heap hi).register hlive
      simp only [World.root, hi]
      refine ⟨congrArg some hcell, hm.reached.step (.root hi hlive), ?_⟩
      refine hm.agrees.setHeap hm.balanced hi hconfig (fun q hq => ?_) fun d _ => rfl
      rw [contents_congr hcells] at hq
      exact hm.agrees.cells _ heap hi q hq

theorem clone (hm : Mirrored ⟨w, held, none⟩ st) (ho : Owned held h) :
    (w.clone h).2.target = h.target ∧
      Mirrored ⟨(w.clone h).1, (w.clone h).2.holdings ++ held, none⟩ st :=
  hm.root (hm.live_of_owned ho)

theorem cloneAll {hs : List Handle} (hm : Mirrored ⟨w, held, none⟩ st)
    (ho : ∀ h ∈ hs, Owned held h) :
    (w.cloneAll hs).2.map Handle.target = hs.map Handle.target ∧
      Mirrored ⟨(w.cloneAll hs).1, (w.cloneAll hs).2.flatMap Handle.holdings ++ held, none⟩
        st := by
  induction hs generalizing w held with
  | nil => exact ⟨rfl, hm⟩
  | cons h hs ih =>
      obtain ⟨hfirst, hm₁⟩ := hm.clone (ho h List.mem_cons_self)
      obtain ⟨hrest, hm₂⟩ := ih hm₁ fun x hx =>
        (ho x (List.mem_cons_of_mem h hx)).mono fun _ hm => List.mem_append_right _ hm
      simp only [World.cloneAll, List.map_cons, hfirst, hrest, List.flatMap_cons]
      refine ⟨trivial, hm₂.permute ?_⟩
      rw [← List.append_assoc]
      exact List.perm_append_comm.append_right _

/-- The cell that is placed joins those that the store has already. -/
theorem place {v : Value Handle} {heap : Heap} {c : CellId}
    (hm : Mirrored ⟨w, v.holdings ++ held, none⟩ st) (hi : w.heap? i = some heap)
    (ho : World.ownsAll i v = true) (hc : c = { heap := i, number := w.nextCell }) :
    Mirrored ⟨{ w with nextCell := w.nextCell + 1 }.finish i (heap.place c v).2,
        .root (heap.place c v).1 :: held, none⟩
      { st with cells := st.cells.insert c v.placed, nextCell := w.nextCell + 1 } := by
  have hheap := hm.balanced.heap_of_value hi ho
  have hlive : ¬heap.Live c := hc ▸ hm.balanced.not_live_next hi
  obtain ⟨-, -, hconfig, hcells⟩ := hheap.placeOnly hlive
  obtain ⟨-, ht⟩ := hheap.place hlive
  refine Mirrored.finish ⟨hm.reached.step (.place hi ho hc), ?_⟩
  have ha : { w with nextCell := w.nextCell + 1 }.Agrees { st with nextCell := w.nextCell + 1 } :=
    ⟨hm.agrees.configs, hm.agrees.cells, hm.agrees.scopes, rfl, hm.agrees.nextEnv⟩
  refine ha.commit hm.balanced.skipNumber hi ht hconfig (fun q hq => ?_) fun d hd => ?_
  · change q ∈ (heap.placeOnly c v).2.contents at hq
    rw [Heap.contents, hcells, List.map_cons] at hq
    rw [Std.ExtTreeMap.getElem?_insert]
    rcases List.mem_cons.mp hq with rfl | hold
    · rw [if_pos (Std.compare_eq_iff_eq.mpr rfl)]
    · rw [if_neg]
      · exact hm.agrees.cells i heap hi q hold
      · -- the new cell is not one of those that were there
        rw [Std.compare_eq_iff_eq]
        rintro rfl
        obtain ⟨p, hp, hpe⟩ := List.mem_map.mp hold
        refine hlive ⟨p.2, hheap.counted.find?_eq_some_iff.mpr ?_⟩
        rw [← congrArg Prod.fst hpe]
        exact hp
  · rw [Std.ExtTreeMap.getElem?_insert, if_neg]
    rw [Std.compare_eq_iff_eq]
    exact fun he => hd (he ▸ hc ▸ rfl)

/-- Placing a value in a new cell. -/
theorem allocate {v : Value Handle} (hm : Mirrored ⟨w, v.holdings ++ held, none⟩ st) (i : HeapId) :
    ObtainedHandle held (w.allocate i v) (st.allocate i v.placed) := by
  have hsize : st.configs.size = w.heaps.size := by
    rw [← hm.agrees.configs, Array.size_map]
  simp only [World.allocate, Store.allocate, ownsAll_placed]
  split
  · rename_i ho
    cases hi : w.heap? i with
    | none =>
        have hout : ¬i < st.configs.size := by
          rw [hsize]
          exact fun hlt => by simp [World.heap?, Array.getElem?_eq_getElem hlt] at hi
        rw [if_neg hout]
        exact .ok hm.discard
    | some heap =>
        obtain ⟨hlt, -⟩ := Array.getElem?_eq_some_iff.mp hi
        rw [if_pos (hsize ▸ hlt), ← hm.agrees.nextCell]
        generalize hc : ({ heap := i, number := w.nextCell } : CellId) = c
        have hlive : ¬heap.Live c := hc ▸ hm.balanced.not_live_next hi
        have hroot : (heap.place c v).1.cell = c :=
          ((hm.balanced.heap_of_value hi ho).placeOnly hlive).1
        have htarget : some c = Handle.target (some (heap.place c v).1) :=
          congrArg some hroot.symm
        have hplaced := hm.place hi ho hc.symm
        rw [htarget]
        exact .ok hplaced
  · exact .error hm.discard

theorem consAll {tail : Handle} {items : List Handle}
    (hm : Mirrored ⟨w, tail.holdings ++ (items.flatMap Handle.holdings ++ held), none⟩ st)
    (i : HeapId) :
    ObtainedHandle held (w.consAll i tail items)
      (st.consAll i tail.target (items.map Handle.target)) := by
  induction items generalizing w st tail with
  | nil => exact .ok hm
  | cons item earlier ih =>
      have hpair : Mirrored ⟨w, (Value.pair item tail).holdings ++
          (earlier.flatMap Handle.holdings ++ held), none⟩ st := by
        apply hm.permute
        rw [holdings_pair, List.flatMap_cons, List.append_assoc, List.append_assoc]
        exact List.perm_append_comm_assoc ..
      have ho := hpair.allocate i
      simp only [World.consAll, Store.consAll, List.map_cons]
      change ObtainedHandle _ _ (st.allocate i (.pair item.target tail.target)) at ho
      generalize w.allocate i (.pair item tail) = out at ho ⊢
      generalize st.allocate i (.pair item.target tail.target) = out' at ho ⊢
      cases ho with
      | ok hm' => exact ih hm'
      | error hm' =>
          refine .error (Mirrored.dropAll (hm'.permute ?_))
          exact (holdings_reverse_perm earlier).symm.append_right _

theorem list {items : List Handle}
    (hm : Mirrored ⟨w, items.flatMap Handle.holdings ++ held, none⟩ st) (i : HeapId) :
    ObtainedHandle held (w.list i items) (st.list i (items.map Handle.target)) := by
  rw [World.list, Store.list, ← List.map_reverse]
  have hreverse : Mirrored ⟨w, Handle.holdings none ++
      (items.reverse.flatMap Handle.holdings ++ held), none⟩ st :=
    hm.permute ((holdings_reverse_perm items).symm.append_right _)
  exact hreverse.consAll i

/-- A new root for a reference of a cell. -/
theorem get (hm : Mirrored ⟨w, held, none⟩ st) (ho : Owned held h) (p : Position) :
    ObtainedHandle held (w.get h p) (st, st.get h.target p) := by
  have hlive := hm.live_of_owned ho
  unfold World.get Store.get
  cases ht : h.target with
  | none => exact .error hm
  | some c =>
      have hc := hlive c ht
      simp only [← hm.agrees.readCell hm.balanced hc]
      cases hg : (w.readCell c).get p with
      | error e => exact .error hm
      | ok s =>
          have hs : ∀ d ∈ s, w.Live d := by
            intro d hd
            cases hd
            exact hm.live_of_child hc (mem_targets_of_get hg)
          obtain ⟨htarget, hm'⟩ := hm.root hs
          have hout : Except.mapError Failure.access (.ok s) =
              (.ok (w.root s).2.target : Except Failure Slot) := by
            rw [htarget]
            rfl
          rw [hout]
          exact .ok hm'

theorem vectorSize (hm : Mirrored ⟨w, held, none⟩ st) (ho : Owned held h) :
    w.vectorSize h = st.vectorSize h.target := by
  have hlive := hm.live_of_owned ho
  unfold World.vectorSize Store.vectorSize
  cases ht : h.target with
  | none => rfl
  | some c => simp only [hm.agrees.readCell hm.balanced (hlive c ht)]

theorem collectNow (hm : Mirrored ⟨w, held, none⟩ st) (i : HeapId) :
    Mirrored ⟨w.collectNow i, held, none⟩ st := by
  simp only [World.collectNow, World.work]
  cases hi : w.heap? i with
  | none => exact hm
  | some heap =>
      obtain ⟨-, ht⟩ := (hm.balanced.heap i heap hi).collectNow
      refine Mirrored.finish ⟨hm.reached.step (.collectNow hi), ?_⟩
      exact hm.agrees.commit hm.balanced hi ht rfl (hm.agrees.cells i heap hi) fun d _ => rfl

end Mirrored

end HybridHeap
