import HybridHeap.Proofs.Mirror.World
import HybridHeap.Proofs.World.Acts

/-!
The log of a world accounts for its heaps. `w.Logs P log w'` follows a sequence of moves that
`P` permits and collects what is reported on the way, also when the events are forgotten in
between. Over every such sequence the totals of the heaps move by what is logged, no cell is
logged as freed twice (`World.Logs.accounts`), and what a collection follows in the log says
what has started it (`World.Logs.of_collected`).
-/

namespace HybridHeap

namespace World

/-- One counter, summed over all heaps. -/
def total (f : Counters → Nat) (w : World) : Nat :=
  (w.heaps.toList.map fun h => f h.counters).sum

/-- A sequence of moves with what they report, the first event in front. -/
inductive Logs (P : Permit) (w : World) : List Event → World → Prop
  | refl : Logs P w [] w
  | move {w₁ w₂ : World} {log es : List Event} (hl : Logs P w log w₁) (hm : Move P w₁ w₂)
      (he : w₂.events = es ++ w₁.events) : Logs P w (log ++ es.reverse) w₂
  | forget {w₁ : World} {log : List Event} (hl : Logs P w log w₁) :
      Logs P w log { w₁ with events := [] }

/-- Every live cell is on the heap that its name says and has got its number. -/
def Numbered (w : World) : Prop :=
  ∀ i h, w.heap? i = some h → ∀ c, h.Live c → c.heap = i ∧ c.number < w.nextCell

/-- The log of what becomes of a world accounts for its heaps: their totals move by what
is logged, and a cell is logged as freed only once, when it goes. -/
structure Accounts (w : World) (log : List Event) (w' : World) : Prop where
  eagerFrees : w'.total Counters.eagerFrees = w.total Counters.eagerFrees + (reported log).length
  collections : w'.total Counters.collections = w.total Counters.collections + (sweeps log).length
  swept : w'.total Counters.swept = w.total Counters.swept + (sweeps log).sum
  nodup : (reported log).Nodup
  came : ∀ c ∈ reported log, w.Live c ∨ w.nextCell ≤ c.number
  gone : ∀ c ∈ reported log, c.number < w'.nextCell ∧ ¬w'.Live c
  precedes : w.Precedes w'
  numbered : w'.Numbered

variable {P : Permit} {w w' w'' : World} {i : HeapId} {h : Heap} {log log' : List Event}

theorem total_setHeap (f : Counters → Nat) (hi : w.heap? i = some h) (h' : Heap) :
    (w.setHeap i h').total f + f h.counters = w.total f + f h'.counters := by
  have hset := foldr_add_set (fun h : Heap => f h.counters) (l := w.heaps.toList) h'
    (by simpa [heap?] using hi)
  simpa only [total, setHeap, Array.toList_setIfInBounds, List.sum_eq_foldr, List.foldr_map]
    using hset

theorem total_of_heaps (hh : w'.heaps = w.heaps) (f : Counters → Nat) :
    w'.total f = w.total f := by
  rw [total, hh, total]

namespace Acts

variable {placed : Option CellId} {r : Reclamation}

theorem heap?_self (ha : Acts P i h placed r w w') : w'.heap? i = some r.heap := by
  rw [ha.world]
  exact heap?_setHeap_self (w := w) ha.heap r.heap

theorem heap?_of_ne (ha : Acts P i h placed r w w') {j : HeapId} (hij : i ≠ j) :
    w'.heap? j = w.heap? j := by
  rw [ha.world]
  exact heap?_setHeap_of_ne hij w r.heap

theorem total_eq (ha : Acts P i h placed r w w') (f : Counters → Nat) :
    w'.total f + f h.counters = w.total f + f r.heap.counters := by
  rw [ha.world]
  exact total_setHeap f ha.heap r.heap

theorem events_eq (ha : Acts P i h placed r w w') : w'.events = r.events ++ w.events := by
  rw [ha.world]
  rfl

theorem eq_events (ha : Acts P i h placed r w w') {es : List Event}
    (he : w'.events = es ++ w.events) : es = r.events :=
  List.append_cancel_right (he.symm.trans ha.events_eq)

theorem nextCell_eq (ha : Acts P i h placed r w w') :
    w'.nextCell = w.nextCell + placed.toList.length := by
  rw [ha.world]
  rfl

/-- A cell that is live after the beginning of an act was live before, or is placed. -/
theorem live (ha : Acts P i h placed r w w') (hn : w.Numbered) {h₀ : Heap}
    (hb : h.Begins placed h₀) {c : CellId} (hl : h₀.Live c) :
    c.heap = i ∧ c.number < w'.nextCell ∧ (w.Live c ∨ w.nextCell ≤ c.number) := by
  have hnext := ha.nextCell_eq
  rcases hb.live c hl with hlive | hplaced
  · obtain ⟨rfl, hlt⟩ := hn i h ha.heap c hlive
    exact ⟨rfl, by omega, .inl ⟨h, ha.heap, hlive⟩⟩
  · obtain rfl := ha.number c hplaced
    rw [Option.mem_def] at hplaced
    rw [hplaced] at hnext
    exact ⟨rfl, by rw [hnext]; exact Nat.lt_succ_self _, .inr (Nat.le_refl _)⟩

theorem accounts (ha : Acts P i h placed r w w') (hn : w.Numbered) (hp : w.Precedes w') :
    w.Accounts r.events.reverse w' := by
  obtain ⟨h₀, hb, ho⟩ := ha.act.outcome
  have hr := ho.reports
  have hcounters : r.heap.counters = h₀.counters.after r.events := hr.counters
  rw [hb.counters] at hcounters
  have heager := ha.total_eq Counters.eagerFrees
  have hcollections := ha.total_eq Counters.collections
  have hswept := ha.total_eq Counters.swept
  rw [hcounters] at heager hcollections hswept
  simp only [Counters.after] at heager hcollections hswept
  constructor
  case eagerFrees =>
    rw [reported_reverse, List.length_reverse]
    omega
  case collections =>
    rw [sweeps_reverse, List.length_reverse]
    omega
  case swept =>
    rw [sweeps_reverse, List.sum_reverse]
    omega
  case nodup =>
    rw [reported_reverse]
    exact (List.reverse_perm _).nodup_iff.mpr hr.nodup
  case came =>
    intro c hc
    rw [reported_reverse, List.mem_reverse] at hc
    exact (ha.live hn hb (hr.freed c hc).1).2.2
  case gone =>
    intro c hc
    rw [reported_reverse, List.mem_reverse] at hc
    obtain ⟨hheap, hnumber, -⟩ := ha.live hn hb (hr.freed c hc).1
    exact ⟨hnumber, fun hl => (hr.freed c hc).2 (hl.on_heap hheap ha.heap?_self)⟩
  case precedes => exact hp
  case numbered =>
    intro j k hk c hl
    by_cases hij : i = j
    · subst hij
      rw [ha.heap?_self, Option.some.injEq] at hk
      subst hk
      obtain ⟨hheap, hnumber, -⟩ := ha.live hn hb (hr.changes.live hl)
      exact ⟨hheap, hnumber⟩
    · rw [ha.heap?_of_ne hij] at hk
      obtain ⟨hheap, hnumber⟩ := hn j k hk c hl
      exact ⟨hheap, Nat.lt_of_lt_of_le hnumber hp.nextCell⟩

end Acts

namespace Accounts

theorem of_heaps (hh : w'.heaps = w.heaps) (hnext : w'.nextCell = w.nextCell)
    (hn : w.Numbered) : w.Accounts [] w' where
  eagerFrees := total_of_heaps hh _
  collections := total_of_heaps hh _
  swept := total_of_heaps hh _
  nodup := .nil
  came c hc := by cases hc
  gone c hc := by cases hc
  precedes := .of_heaps hh hnext
  numbered i h hi c hl := by
    rw [heap?, hh] at hi
    rw [hnext]
    exact hn i h hi c hl

theorem trans (ha : w.Accounts log w') (ha' : w'.Accounts log' w'') :
    w.Accounts (log ++ log') w'' where
  eagerFrees := by
    rw [ha'.eagerFrees, ha.eagerFrees, reported_append, List.length_append, Nat.add_assoc]
  collections := by
    rw [ha'.collections, ha.collections, sweeps_append, List.length_append, Nat.add_assoc]
  swept := by
    rw [ha'.swept, ha.swept, sweeps_append, List.sum_append, Nat.add_assoc]
  nodup := by
    rw [reported_append, List.nodup_append]
    refine ⟨ha.nodup, ha'.nodup, ?_⟩
    rintro c hc _ hc' rfl
    obtain ⟨hnumber, hdead⟩ := ha.gone c hc
    rcases ha'.came c hc' with hl | hnew
    · exact hdead hl
    · omega
  came c hc := by
    rw [reported_append] at hc
    rcases List.mem_append.mp hc with hc | hc
    · exact ha.came c hc
    · rcases ha'.came c hc with ⟨h', hi', hl⟩ | hnew
      · obtain ⟨h, hi, hh⟩ := ha.precedes.heaps _ h' hi'
        exact (hh.live c hl).imp (fun hl => ⟨h, hi, hl⟩) id
      · exact .inr (Nat.le_trans ha.precedes.nextCell hnew)
  gone c hc := by
    rw [reported_append] at hc
    rcases List.mem_append.mp hc with hc | hc
    · obtain ⟨hnumber, hdead⟩ := ha.gone c hc
      refine ⟨Nat.lt_of_lt_of_le hnumber ha'.precedes.nextCell, ?_⟩
      rintro ⟨h', hi', hl⟩
      exact ha'.precedes.not_live hnumber (fun h hi hl => hdead ⟨h, hi, hl⟩) hi' hl
    · exact ha'.gone c hc
  precedes := ha.precedes.trans ha'.precedes
  numbered := ha'.numbered

end Accounts

theorem Move.accounts (hm : Move P w w') (hn : w.Numbered) {es : List Event}
    (he : w'.events = es ++ w.events) : w.Accounts es.reverse w' := by
  rcases hm.act with hidle | ⟨i, h, placed, r, ha⟩
  · obtain rfl : es = [] := List.append_left_eq_self.mp (he.symm.trans hidle.events)
    exact .of_heaps hidle.heaps hidle.nextCell hn
  · obtain rfl := ha.eq_events he
    exact ha.accounts hn hm.precedes

section Alone

/-- Where only one heap has counted anything, the totals have moved with its counters. -/
theorem total_of_alone {h' : Heap} (hw : HeapsTurn Heap.Goes w w') (hi : w.heap? i = some h)
    (hi' : w'.heap? i = some h')
    (hrest : ∀ j k k', j ≠ i → w.heap? j = some k → w'.heap? j = some k' →
      k'.counters = k.counters) (f : Counters → Nat) :
    w'.total f + f h.counters = w.total f + f h'.counters := by
  have hlists : w'.heaps.toList.map (fun h => f h.counters) =
      (w.setHeap i h').heaps.toList.map fun h => f h.counters := by
    apply List.ext_getElem?
    intro j
    rw [List.getElem?_map, List.getElem?_map, Array.getElem?_toList, Array.getElem?_toList]
    show (w'.heap? j).map _ = ((w.setHeap i h').heap? j).map _
    by_cases hij : j = i
    · rw [hij, hi', heap?_setHeap_self hi]
    · rw [heap?_setHeap_of_ne (Ne.symm hij)]
      cases hj : w.heap? j with
      | none =>
          cases hj' : w'.heap? j with
          | none => rfl
          | some k' =>
              obtain ⟨k, hk, -⟩ := hw.exists_of_some_right hj'
              rw [hj] at hk
              cases hk
      | some k =>
          obtain ⟨k', hj', -⟩ := hw.exists_of_some hj
          rw [hj', Option.map_some, Option.map_some, hrest j k k' hij hj hj']
  rw [total, hlists]
  exact total_setHeap f hi h'

theorem Accounts.alone (ha : w.Accounts log w') (hw : HeapsTurn Heap.Goes w w') {h' : Heap}
    (hi : w.heap? i = some h) (hi' : w'.heap? i = some h')
    (hrest : ∀ j k k', j ≠ i → w.heap? j = some k → w'.heap? j = some k' →
      k'.counters = k.counters) :
    h'.counters.eagerFrees = h.counters.eagerFrees + (reported log).length ∧
      h'.counters.collections = h.counters.collections + (sweeps log).length ∧
      h'.counters.swept = h.counters.swept + (sweeps log).sum := by
  have heager := total_of_alone hw hi hi' hrest Counters.eagerFrees
  have hcollections := total_of_alone hw hi hi' hrest Counters.collections
  have hswept := total_of_alone hw hi hi' hrest Counters.swept
  rw [ha.eagerFrees] at heager
  rw [ha.collections] at hcollections
  rw [ha.swept] at hswept
  omega

end Alone

namespace Logs

/-- The heaps go their courses while their events are logged. -/
theorem goes (hl : w.Logs P log w') : HeapsTurn Heap.Goes w w' := by
  induction hl with
  | refl => exact .of_heaps Heap.Goes.refl rfl
  | move _ hm _ ih => exact ih.trans Heap.Goes.trans hm.goes
  | forget _ ih => exact ih.trans Heap.Goes.trans (.of_heaps Heap.Goes.refl rfl)

theorem trans (hl : w.Logs P log w') (hl' : w'.Logs P log' w'') :
    w.Logs P (log ++ log') w'' := by
  induction hl' with
  | refl =>
      rw [List.append_nil]
      exact hl
  | move _ hm he ih =>
      rw [← List.append_assoc]
      exact ih.move hm he
  | forget _ ih => exact ih.forget

/-- Whatever is logged accounts for the heaps. -/
theorem accounts (hl : w.Logs P log w') (hn : w.Numbered) : w.Accounts log w' := by
  induction hl with
  | refl => exact .of_heaps rfl rfl hn
  | move _ hm he ih => exact ih.trans (hm.accounts ih.numbered he)
  | @forget w₁ log _ ih =>
      have hforgotten : w₁.Accounts [] { w₁ with events := [] } := .of_heaps rfl rfl ih.numbered
      have hall := ih.trans hforgotten
      rwa [List.append_nil] at hall

end Logs

/-- Moves add to the events, and what they add is logged. -/
theorem Moves.logs (hm : Moves P w w') :
    ∃ es, w'.events = es ++ w.events ∧ w.Logs P es.reverse w' := by
  induction hm with
  | refl => exact ⟨[], rfl, .refl⟩
  | @tail w₁ w₂ _ hlast ih =>
      obtain ⟨es, he, hl⟩ := ih
      have hadds : ∃ es', w₂.events = es' ++ w₁.events := by
        rcases hlast.act with hidle | ⟨i, h, placed, r, ha⟩
        · exact ⟨[], hidle.events⟩
        · exact ⟨r.events, ha.events_eq⟩
      obtain ⟨es', he'⟩ := hadds
      refine ⟨es' ++ es, by rw [he', he, List.append_assoc], ?_⟩
      rw [List.reverse_append]
      exact hl.move hlast he'

/-- In a log from `w` to `w'` the event `e`, which comes after `pre` and before `post`, is
the last thing that a heap reports which is asked to collect, as `P` permits. -/
def Requested (P : Permit) (w : World) (pre : List Event) (e : Event) (post : List Event)
    (w' : World) : Prop :=
  ∃ (w₁ : World) (i : HeapId) (h : Heap) (earlier : List Event),
    P.collects i ∧ w.Logs P earlier w₁ ∧ w₁.heap? i = some h ∧
      earlier ++ h.collectNow.events.reverse = pre ++ [e] ∧
      (w₁.commit i h.collectNow).1.Logs P post w'

section Collected

variable {pre post es : List Event} {before left swept traced capacity : Nat}

/-- A collection that a move reports was started by the threshold, which the move has reported
too, or it was requested. -/
theorem Move.of_collected (hl : w.Logs P log w') (hm : Move P w' w'')
    (hevents : w''.events = es ++ w'.events)
    (he : es.reverse = pre ++ .collected before left swept traced capacity :: post) :
    (∃ (earlier : List Event) (live limit : Nat) (freed : List CellId),
        pre = earlier ++ .triggered live limit :: freed.map .freed) ∨
      w.Requested P (log ++ pre) (.collected before left swept traced capacity) post w'' := by
  rcases hm.act with hidle | ⟨i, h, placed, r, ha⟩
  · obtain rfl : es = [] := List.append_left_eq_self.mp (hevents.symm.trans hidle.events)
    simp at he
  · obtain rfl := ha.eq_events hevents
    obtain ⟨h₀, -, ho⟩ := ha.act.outcome
    obtain ⟨rfl, -, -, ⟨hasked, rfl, rfl⟩ | htriggered⟩ := ho.of_collected he
    · have hworld : w'' = (w'.commit i h.collectNow).1 := ha.world
      refine .inr ⟨w', i, h, log, hasked, hl, ha.heap, ?_, hworld ▸ .refl⟩
      rw [he, List.append_assoc]
    · exact .inl htriggered

/-- A collection that the log tells of was started by the threshold, which is logged too, or
it was requested. -/
theorem Logs.of_collected (hl : w.Logs P log w')
    (he : log = pre ++ .collected before left swept traced capacity :: post) :
    (∃ (earlier : List Event) (live limit : Nat) (freed : List CellId),
        pre = earlier ++ .triggered live limit :: freed.map .freed) ∨
      w.Requested P pre (.collected before left swept traced capacity) post w' := by
  induction hl generalizing post with
  | refl => simp at he
  | @move w₁ w₂ log es hl hm hevents ih =>
      -- the collection is in what the last move reports, or in what was logged before
      rcases List.append_eq_append_iff.mp he with ⟨a, rfl, hes⟩ | ⟨_ | ⟨e, a⟩, rfl, hrest⟩
      · rcases hm.of_collected hl hevents hes with ⟨earlier, live, limit, freed, rfl⟩ | hrequest
        · exact .inl ⟨log ++ earlier, live, limit, freed, (List.append_assoc ..).symm⟩
        · exact .inr hrequest
      · have hfirst : es.reverse = [] ++ .collected before left swept traced capacity :: post :=
          hrest.symm
        rcases hm.of_collected hl hevents hfirst with
          ⟨earlier, live, limit, freed, hnil⟩ | hrequest
        · simp at hnil
        · simp only [List.append_nil] at hrequest
          exact .inr hrequest
      · obtain ⟨rfl, rfl⟩ := List.cons.inj hrest
        refine (ih rfl).imp id ?_
        rintro ⟨w₀, i, h, earlier, hasked, hbefore, hi, hreport, hafter⟩
        exact ⟨w₀, i, h, earlier, hasked, hbefore, hi, hreport, hafter.move hm hevents⟩
  | forget _ ih =>
      refine (ih he).imp id ?_
      rintro ⟨w₁, i, h, earlier, hasked, hbefore, hi, hreport, hafter⟩
      exact ⟨w₁, i, h, earlier, hasked, hbefore, hi, hreport, hafter.forget⟩

end Collected

end World

end HybridHeap
