import HybridHeap.Proofs.Session.Placement
import HybridHeap.Proofs.World.Aging
import HybridHeap.Proofs.World.History
import HybridHeap.Proofs.World.Traceless

/-!
Lists in a world. A list is a chain of pairs that ends in null; it is built from its last item
on, and each allocation may start a collection. Everything built so far hangs from the one root
that is held (`World.Chain`), and the items that wait are held themselves; so it is all there in
the end, and nothing of it is gone meanwhile.
-/

namespace HybridHeap

namespace World

theorem flatMap_holdings (hs : List Handle) :
    hs.flatMap Handle.holdings = (hs.filterMap id).map .root := by
  rw [← map_holding_dropRoot, List.map_map]
  rfl

theorem node_flatMap_holdings (hs : List Handle) :
    (hs.flatMap Handle.holdings).map Holding.node =
      ((hs.map Handle.target).filterMap id).map .cell := by
  induction hs with
  | nil => rfl
  | cons x hs ih =>
      rw [List.flatMap_cons, List.map_append, ih, x.node_holdings, List.map_cons,
        filterMap_id_cons, List.map_append]

/-- From the slot on, the pairs `cells` hold the items one after the other, and the last of them
ends in null. -/
inductive ListAt (w : World) : (cells : List CellId) → (items : List Slot) → Slot → Prop
  | nil : ListAt w [] [] none
  | cons {c : CellId} {cells : List CellId} {item next : Slot} {items : List Slot}
      (hl : w.Live c) (hv : w.readCell c = .pair item next) (ht : ListAt w cells items next) :
      ListAt w (c :: cells) (item :: items) (some c)

variable {w w' : World} {held : List Holding} {write : Option Writing} {i : HeapId} {h : Heap}
  {cells : List CellId} {items : List Slot} {s : Slot}

/-- What a live cell refers to is alive. -/
theorem Balanced.live_of_child (hb : w.Balanced held write) {c d : CellId} (hl : w.Live c)
    (hd : d ∈ (w.readCell c).targets) : w.Live d := by
  obtain ⟨h, hi, cell, hf⟩ := hl
  have hread : w.readCell c = cell.value := by
    simp only [readCell, hi, Heap.read, hf]
  exact hb.alive_of_edge (.slot hi hf (hread ▸ hd))

namespace ListAt

theorem live (hl : w.ListAt cells items s) {c : CellId} (hc : c ∈ cells) : w.Live c := by
  induction hl with
  | nil => cases hc
  | cons hlive _ _ ih =>
      rcases List.mem_cons.mp hc with rfl | hc
      · exact hlive
      · exact ih hc

/-- A list starts with the first of its pairs, or is null. -/
theorem mem_cells (hl : w.ListAt cells items s) : ∀ c ∈ s, c ∈ cells := by
  intro c hc
  cases hl with
  | nil => cases hc
  | cons =>
      cases hc
      exact List.mem_cons_self

theorem length_eq (hl : w.ListAt cells items s) : cells.length = items.length := by
  induction hl with
  | nil => rfl
  | cons _ _ _ ih => rw [List.length_cons, List.length_cons, ih]

/-- The items of a list are alive. -/
theorem live_item (hl : w.ListAt cells items s) (hb : w.Balanced held write) :
    ∀ item ∈ items, ∀ c ∈ item, w.Live c := by
  induction hl with
  | nil => exact fun item hitem => by cases hitem
  | @cons c cells item next items hlive hv _ ih =>
      intro x hx d hd
      rcases List.mem_cons.mp hx with rfl | hx
      · refine hb.live_of_child hlive (hv ▸ List.mem_filterMap.mpr ⟨x, ?_, hd⟩)
        exact List.mem_cons_self
      · exact ih x hx d hd

/-- As long as its first pair is alive, a list is all there. -/
theorem of_keeps (hl : w.ListAt cells items s) (hb' : w'.Balanced held write)
    (hk : ∀ c ∈ cells, w.Keeps w' (.cell c)) (hs : ∀ c ∈ s, w'.Live c) :
    w'.ListAt cells items s := by
  induction hl with
  | nil => exact .nil
  | @cons c cells item next items _ hv _ ih =>
      have hlive : w'.Live c := hs c rfl
      have hread := ((hk c List.mem_cons_self).readCell_eq hlive).trans hv
      refine .cons hlive hread (ih (fun d hd => hk d (List.mem_cons_of_mem c hd)) fun d hd => ?_)
      refine hb'.live_of_child hlive (hread ▸ List.mem_filterMap.mpr ⟨next, ?_, hd⟩)
      exact List.mem_cons_of_mem item List.mem_cons_self

/-- The references of the pairs of a list: its items, and all pairs but the first. -/
theorem count_refs (hl : w.ListAt cells items s) {n : Node} (hn : ∀ c ∈ cells, n ≠ .cell c) :
    ((cells.map Node.cell).flatMap w.refs).count n =
      ((items.filterMap id).map Node.cell).count n := by
  induction hl with
  | nil => rfl
  | @cons c cells item next items _ hv ht ih =>
      have hnext : (next.toList.map Node.cell).count n = 0 := by
        rw [List.count_eq_zero, List.mem_map]
        rintro ⟨d, hd, rfl⟩
        cases ht with
        | nil => cases hd
        | cons =>
            cases List.mem_singleton.mp hd
            exact hn d (List.mem_cons_of_mem c List.mem_cons_self) rfl
      have hrefs : w.refs (.cell c) = ([item, next].filterMap id).map Node.cell := by
        rw [refs, hv]
        exact List.append_nil _
      rw [List.map_cons, List.flatMap_cons, List.count_append, hrefs,
        ih fun d hd => hn d (List.mem_cons_of_mem c hd), filterMap_id_cons, filterMap_id_cons,
        filterMap_id_cons, List.filterMap_nil, List.append_nil, List.map_append, List.map_append,
        List.count_append, List.count_append, hnext, Nat.add_zero]

end ListAt

/-- A pair whose references stay inside the heap. -/
theorem ownsAll_pair {x y : Handle} (hx : ∀ r ∈ x, r.cell.heap = i)
    (hy : ∀ r ∈ y, r.cell.heap = i) : ownsAll i (.pair x y) = true := by
  rw [ownsAll, List.all_eq_true]
  intro r hr
  rw [decide_eq_true_eq]
  have hmem : r ∈ [x, y].filterMap id := hr
  rw [filterMap_id_cons, filterMap_id_cons, List.filterMap_nil, List.append_nil, List.mem_append,
    Option.mem_toList, Option.mem_toList] at hmem
  exact hmem.elim (hx r) (hy r)

theorem allocate_of_foreign {x y : Handle} (hx : ¬∀ r ∈ x, r.cell.heap = i) :
    w.allocate i (.pair x y) = (w.discard (.pair x y), .error (.foreign .inNewCell)) := by
  rw [allocate, if_neg]
  rw [ownsAll, List.all_eq_true]
  intro ho
  refine hx fun r hr => of_decide_eq_true (ho r ?_)
  exact List.mem_filterMap.mpr ⟨x, List.mem_cons_self, hr⟩

section Building

variable {w₀ : World} {item tail : Handle} {done waiting : List Handle}

/-- A pair in front of a list is a list, in every world that has no less than the pair and what
it leads to. -/
theorem Balanced.listAt_of_placed (hb : w.Balanced ((Value.pair item tail).holdings ++ held) none)
    (hi : w.heap? i = some h) (ho : ownsAll i (.pair item tail) = true)
    (hl : w.ListAt cells items tail.target)
    (hless : ∀ n, (w.withCell i (.pair item tail)).Keeps w' n) {held' : List Holding}
    (hb' : w'.Balanced held' none) (hlive : w'.Live (w.nextOf i)) :
    w'.ListAt (w.nextOf i :: cells) (item.target :: items) (some (w.nextOf i)) ∧
      ∀ n, n ≠ .cell (w.nextOf i) → w.Keeps w' n := by
  obtain ⟨hplaced, -, hothers⟩ := hb.readCell_withCell hi ho
  have hkeeps : ∀ n, n ≠ .cell (w.nextOf i) → w.Keeps w' n := fun n hn =>
    (hothers n hn).trans (hless n)
  have hread : w'.readCell (w.nextOf i) = .pair item.target tail.target :=
    ((hless (.cell (w.nextOf i))).readCell_eq hlive).trans hplaced
  refine ⟨.cons hlive hread (hl.of_keeps hb' (fun c hc => hkeeps _ fun he => ?_) ?_), hkeeps⟩
  · -- the cells of the list were there before
    exact hb.not_fresh_of_alive (n := .cell c) (hl.live hc)
      (Nat.le_of_eq (congrArg CellId.number (Node.cell_injective he)).symm)
  · refine fun c hc => hb'.live_of_child hlive (hread ▸ List.mem_filterMap.mpr ⟨_, ?_, hc⟩)
    exact List.mem_cons_of_mem _ List.mem_cons_self

/-- Since `w₀` the pairs `cells` were made, and they hold the items one after the other in front
of null; `tail` is the handle of the first of them. Each is referred to once, and all else is
left of `w₀` as it was. -/
structure Chain (w₀ : World) (i : HeapId) (done : List Handle) (cells : List CellId)
    (tail : Handle) (w : World) : Prop where
  list : w.ListAt cells (done.map Handle.target) tail.target
  distinct : cells.Nodup
  fresh : ∀ c ∈ cells, w₀.nextCell ≤ c.number
  single : ∀ c ∈ cells, w.tally (.cell c) = 1
  keeps : ∀ n, n ∉ cells.map Node.cell → w₀.Keeps w n
  next : w₀.nextCell ≤ w.nextCell
  home : ∀ r ∈ tail, r.cell.heap = i
  newest : ∀ r ∈ tail, ∀ h₀, w₀.heap? i = some h₀ → h₀.nextTicket ≤ r.ticket
  heaps : ∀ j h₀, w₀.heap? j = some h₀ → ∃ h, w.heap? j = some h ∧ h₀.nextTicket ≤ h.nextTicket ∧
    h.counters.allocations = h₀.counters.allocations + if j = i then done.length else 0

namespace Chain

theorem start (w : World) (i : HeapId) : Chain w i [] [] none w where
  list := .nil
  distinct := .nil
  fresh _ hc := by cases hc
  single _ hc := by cases hc
  keeps n _ := .refl w n
  next := Nat.le_refl _
  home _ hr := by cases hr
  newest _ hr := by cases hr
  heaps j h₀ hj := by
    refine ⟨h₀, hj, Nat.le_refl _, ?_⟩
    split <;> rfl

variable (hs : Chain w₀ i done cells tail w)

include hs

/-- What was alive at first is no pair of the chain. -/
theorem keeps_of_alive {held₀ : List Holding} (hb₀ : w₀.Balanced held₀ none) {n : Node}
    (hn : w₀.Alive n) : w₀.Keeps w n := by
  refine hs.keeps n fun hm => ?_
  obtain ⟨c, hc, rfl⟩ := List.mem_map.mp hm
  exact hb₀.not_fresh_of_alive hn (hs.fresh c hc)

/-- One more pair in front. -/
theorem cons (hb : w.Balanced ((Value.pair item tail).holdings ++ held) none)
    (hi : w.heap? i = some h) (hitem : ∀ r ∈ item, r.cell.heap = i) :
    ∃ r, (w.allocate i (.pair item tail)).2 = .ok (some r) ∧
      (w.allocate i (.pair item tail)).1.Balanced (.root r :: held) none ∧
      Chain w₀ i (item :: done) (r.cell :: cells) (some r)
        (w.allocate i (.pair item tail)).1 := by
  have ho := ownsAll_pair hitem hs.home
  obtain ⟨hr, hb', hless⟩ := hb.allocate hi ho
  obtain ⟨objects, roots, -, -, hplace, -⟩ :=
    (hb.heap_of_value hi ho).placeOnly_eq (hb.not_live_next hi)
  have hticket : (h.placeOnly (w.nextOf i) (.pair item tail)).1.ticket = h.nextTicket := by
    rw [hplace]
  have hmoves : Moves .none w (w.allocate i (.pair item tail)).1 :=
    w.moves_allocate i _
  have hcount : ∀ {j k}, w.heap? j = some k → _ := hb.allocations_allocate hi ho
  generalize hroot : (h.placeOnly (w.nextOf i) (.pair item tail)).1 = r at hr hb' hticket
  generalize (w.allocate i (.pair item tail)).1 = w' at hb' hless hmoves hcount ⊢
  obtain ⟨hcell, hfresh, hlive, -, hone⟩ := hb.cell_of_placed hi ho hroot.symm hless hb'
  obtain ⟨hlist, hkeeps⟩ := hb.listAt_of_placed hi ho hs.list hless hb' (hcell ▸ hlive)
  rw [← hcell] at hlist hkeeps
  refine ⟨r, hr, hb', ?_⟩
  constructor
  case list => exact hlist
  case distinct => exact List.nodup_cons.mpr ⟨fun hc => hfresh (hs.list.live hc), hs.distinct⟩
  case fresh =>
    intro c hc
    rcases List.mem_cons.mp hc with rfl | hc
    · rw [hcell]
      exact hs.next
    · exact hs.fresh c hc
  case single =>
    intro c hc
    rcases List.mem_cons.mp hc with rfl | hc
    · exact hone
    · have hlive' : w'.Live c := hlist.live (List.mem_cons_of_mem _ hc)
      have hsame := hb.tally_of_placed hi ho hroot.symm hless hb' (n := .cell c)
        (hs.list.live hc) hlive'
      have hpos := hb'.tally_pos hlive'
      have hone := hs.single c hc
      omega
  case keeps =>
    intro n hn
    rw [List.map_cons, List.mem_cons, not_or] at hn
    exact (hs.keeps n hn.2).trans (hkeeps n hn.1)
  case next => exact Nat.le_trans hs.next hmoves.precedes.nextCell
  case home => exact fun s hs' => Option.some.inj hs' ▸ hcell ▸ rfl
  case newest =>
    intro s hs' h₀ hi₀
    obtain ⟨k, hk, hle, -⟩ := hs.heaps i h₀ hi₀
    cases hi.symm.trans hk
    rw [← Option.some.inj hs', hticket]
    exact hle
  case heaps =>
    intro j h₀ hj
    obtain ⟨k, hk, hle, hallocations⟩ := hs.heaps j h₀ hj
    obtain ⟨k', hk', hallocations'⟩ := hcount hk
    have hissued := hmoves.rests (j := j) not_false not_false
    rw [hk, hk'] at hissued
    cases hissued with
    | some hrests =>
        refine ⟨k', hk', Nat.le_trans hle hrests.nextTicket_le, ?_⟩
        rw [hallocations', hallocations, List.length_cons]
        split <;> omega

end Chain

/-- The worlds that are passed while pairs are put in front of a tail, those within the
allocations included. -/
inductive Building (i : HeapId) : World → Handle → List Handle → World → Prop
  | here (w : World) (tail : Handle) (waiting : List Handle) : Building i w tail waiting w
  | within {w w' : World} {h : Heap} {item tail : Handle} {waiting : List Handle}
      (hi : w.heap? i = some h)
      (hp : ({ w with nextCell := w.nextCell + 1 }.commit i
        (h.place (w.nextOf i) (.pair item tail)).2).1.Passes
          (h.place (w.nextOf i) (.pair item tail)).2.payloads w') :
      Building i w tail (item :: waiting) w'
  | later {w w₁ w' : World} {item tail next : Handle} {waiting : List Handle}
      (ha : w.allocate i (.pair item tail) = (w₁, .ok next))
      (hb : Building i w₁ next waiting w') : Building i w tail (item :: waiting) w'

/-- The handles of a pair, then those that wait. -/
theorem Balanced.pair_waiting
    (hb : w.Balanced (tail.holdings ++ ((item :: waiting).flatMap Handle.holdings ++ held)) none) :
    w.Balanced ((Value.pair item tail).holdings ++
      (waiting.flatMap Handle.holdings ++ held)) none := by
  refine hb.perm ?_
  rw [List.flatMap_cons, holdings_pair, List.append_assoc, ← List.append_assoc tail.holdings]
  exact List.perm_append_comm.append_right _

namespace Chain

/-- Items of one heap make a chain of pairs, the last item first. -/
theorem consAll (hs : Chain w₀ i done cells tail w)
    (hb : w.Balanced (tail.holdings ++ (waiting.flatMap Handle.holdings ++ held)) none)
    (hi : w.heap? i = some h) (hwaiting : ∀ x ∈ waiting, ∀ r ∈ x, r.cell.heap = i) :
    ∃ x cells', (w.consAll i tail waiting).2 = .ok x ∧
      (w.consAll i tail waiting).1.Balanced (x.holdings ++ held) none ∧
      Chain w₀ i (waiting.reverse ++ done) cells' x (w.consAll i tail waiting).1 ∧
      Building i w tail waiting (w.consAll i tail waiting).1 := by
  induction waiting generalizing w tail h cells done with
  | nil => exact ⟨tail, cells, rfl, hb, hs, .here w tail []⟩
  | cons item waiting ih =>
      obtain ⟨r, hr, hb', hs'⟩ := hs.cons hb.pair_waiting hi (hwaiting item List.mem_cons_self)
      rw [World.consAll]
      generalize hout : w.allocate i (.pair item tail) = out at hr hb' hs' ⊢
      obtain ⟨w', res⟩ := out
      dsimp only at hr hb' hs'
      subst hr
      obtain ⟨k, hk, -⟩ := hs'.list.live List.mem_cons_self
      rw [hs'.home r rfl] at hk
      obtain ⟨x, cells', hx, hb'', hs'', hbuilt⟩ :=
        ih hs' hb' hk fun x hx => hwaiting x (List.mem_cons_of_mem item hx)
      rw [List.reverse_cons, List.append_assoc]
      exact ⟨x, cells', hx, hb'', hs'', .later hout hbuilt⟩

/-- While the chain grows, all its items are alive, those that wait included, and nothing that
was there at first has changed. -/
theorem building {held₀ : List Holding} (hb₀ : w₀.Balanced held₀ none)
    (hs : Chain w₀ i done cells tail w)
    (hb : w.Balanced (tail.holdings ++ (waiting.flatMap Handle.holdings ++ held)) none)
    (hi : w.heap? i = some h) (hwaiting : ∀ x ∈ waiting, ∀ r ∈ x, r.cell.heap = i)
    (hp : Building i w tail waiting w') :
    (∀ x ∈ waiting ++ done, ∀ r ∈ x, w'.Live r.cell) ∧ ∀ n, w₀.Alive n → w₀.Keeps w' n := by
  -- an item is in the list or it is held
  have hall : ∀ {w' : World} {cells : List CellId} {done waiting : List Handle} {s : Slot}
      {held' : List Holding}, w'.ListAt cells (done.map Handle.target) s →
      w'.Balanced (held' ++ (waiting.flatMap Handle.holdings ++ held)) none →
      ∀ x ∈ waiting ++ done, ∀ r ∈ x, w'.Live r.cell := by
    intro w' cells done waiting s held' hl hb' x hx r hr
    rcases List.mem_append.mp hx with hx | hx
    · refine hb'.live (List.mem_append_right _ (List.mem_append_left _ ?_))
      exact List.mem_flatMap.mpr ⟨x, hx, List.mem_map_of_mem (Option.mem_toList.mpr hr)⟩
    · exact hl.live_item hb' _ (List.mem_map_of_mem hx) _ (Option.mem_map_of_mem Root.cell hr)
  induction hp generalizing h cells done with
  | here w tail waiting => exact ⟨hall hs.list hb, fun n hn => hs.keeps_of_alive hb₀ hn⟩
  | @within w w' k item tail waiting hk hp =>
      have ho := ownsAll_pair (hwaiting item List.mem_cons_self) hs.home
      have hpair := hb.pair_waiting
      obtain ⟨hless, held', hb'⟩ := hpair.passes_place hk ho hp
      obtain ⟨hcell, -⟩ := (hpair.heap_of_value hk ho).placeOnly (hpair.not_live_next hk)
      have hlive := hb'.live (List.mem_append_right held' List.mem_cons_self)
      rw [hcell] at hlive
      obtain ⟨hlist, hkeeps⟩ := hpair.listAt_of_placed hk ho hs.list hless hb' hlive
      have hdone : w'.ListAt (w.nextOf i :: cells) ((item :: done).map Handle.target) _ := hlist
      refine ⟨fun x hx => ?_, fun n hn => ?_⟩
      · rw [List.append_cons] at hb'
        refine hall hdone hb' x ?_
        simp only [List.mem_append, List.mem_cons] at hx ⊢
        tauto
      · refine (hs.keeps_of_alive hb₀ hn).trans (hkeeps n ?_)
        rintro rfl
        exact hb₀.not_fresh_of_alive hn hs.next
  | @later w w₁ w' item tail next waiting ha _ ih =>
      obtain ⟨r, hr, hb', hs'⟩ := hs.cons hb.pair_waiting hi (hwaiting item List.mem_cons_self)
      rw [ha] at hr hb' hs'
      cases hr
      obtain ⟨k, hk, -⟩ := hs'.list.live List.mem_cons_self
      rw [hs'.home r rfl] at hk
      obtain ⟨hlive, hkeeps⟩ :=
        ih hs' hb' hk fun x hx => hwaiting x (List.mem_cons_of_mem item hx)
      refine ⟨fun x hx => hlive x ?_, hkeeps⟩
      simp only [List.mem_append, List.mem_cons] at hx ⊢
      tauto

end Chain

end Building

namespace Balanced

variable {item tail : Handle} {given : List Handle} {done : List Handle}

/-- With an item of another heap there is no list. -/
theorem consAll_foreign {w₀ : World}
    (hb : w.Balanced (tail.holdings ++ (given.flatMap Handle.holdings ++ held)) none)
    (hi : w.heap? i = some h) (hs : Chain w₀ i done cells tail w)
    (hgiven : ∃ x ∈ given, ∃ r ∈ x, r.cell.heap ≠ i) :
    (w.consAll i tail given).2 = .error (.foreign .inNewCell) := by
  induction given generalizing w tail h cells done with
  | nil =>
      obtain ⟨x, hx, -⟩ := hgiven
      cases hx
  | cons item earlier ih =>
      rw [World.consAll]
      by_cases hitem : ∀ r ∈ item, r.cell.heap = i
      · obtain ⟨r, hr, hb', hs'⟩ := hs.cons hb.pair_waiting hi hitem
        generalize w.allocate i (.pair item tail) = out at hr hb' hs' ⊢
        obtain ⟨w', res⟩ := out
        dsimp only at hr hb' hs'
        subst hr
        obtain ⟨k, hk, -⟩ := hs'.list.live List.mem_cons_self
        rw [hs'.home r rfl] at hk
        refine ih hb' hk hs' ?_
        obtain ⟨x, hx, r, hr, hne⟩ := hgiven
        rcases List.mem_cons.mp hx with rfl | hx
        · exact absurd (hitem r hr) hne
        · exact ⟨x, hx, r, hr, hne⟩
      · rw [allocate_of_foreign hitem]

/-- The last item is put into the list first. -/
theorem reversed (hb : w.Balanced (given.flatMap Handle.holdings ++ held) none) :
    w.Balanced (Handle.holdings none ++
      (given.reverse.flatMap Handle.holdings ++ held)) none :=
  hb.perm ((holdings_reverse_perm given).symm.append_right held)

/-- The list of the items is made of new pairs. -/
theorem list (hb : w.Balanced (given.flatMap Handle.holdings ++ held) none)
    (hi : w.heap? i = some h) (hgiven : ∀ x ∈ given, ∀ r ∈ x, r.cell.heap = i) :
    ∃ x cells, (w.list i given).2 = .ok x ∧
      (w.list i given).1.Balanced (x.holdings ++ held) none ∧
      Chain w i given cells x (w.list i given).1 ∧
      Building i w none given.reverse (w.list i given).1 := by
  obtain ⟨x, cells, hx, hb', hs, hbuilt⟩ := (Chain.start w i).consAll hb.reversed hi
    fun x hx => hgiven x (List.mem_reverse.mp hx)
  rw [List.reverse_reverse, List.append_nil] at hs
  exact ⟨x, cells, hx, hb', hs, hbuilt⟩

theorem list_foreign (hb : w.Balanced (given.flatMap Handle.holdings ++ held) none)
    (hi : w.heap? i = some h) (hgiven : ∃ x ∈ given, ∃ r ∈ x, r.cell.heap ≠ i) :
    (w.list i given).2 = .error (.foreign .inNewCell) := by
  obtain ⟨x, hx, hforeign⟩ := hgiven
  exact hb.reversed.consAll_foreign hi (.start w i) ⟨x, List.mem_reverse.mpr hx, hforeign⟩

end Balanced

end World

end HybridHeap
