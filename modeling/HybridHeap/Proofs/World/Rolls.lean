import HybridHeap.Proofs.Heap.RootList
import HybridHeap.Proofs.World.Acts
import HybridHeap.Proofs.World.Ledger
import HybridHeap.Proofs.World.Listing
import HybridHeap.Proofs.World.Openings

/-!
The two lists of a heap over a run. What is new comes first on a list, and what goes leaves it
wherever it stands; so a list is at every moment what has come and has not gone, in the order of
its coming. The cells of a heap are those that were placed and are not gone
(`Moment.Run.idsOf_eq`), and its root list has the entries of the roots that were registered and
are not removed (`Moment.Enrols.roots_eq`).
-/

namespace HybridHeap

section NewestFirst

variable {α : Type} [BEq α] [LawfulBEq α] {key : α → Nat} {n : Nat} {l l' : List α}

/-- What becomes of a list when newer things come and others go: the newer ones stand in front,
and what has stayed stands as it stood. -/
theorem eq_newer_append (hl : (l.map key).Pairwise (· > ·)) (hl' : (l'.map key).Pairwise (· > ·))
    (hold : ∀ a ∈ l, key a < n) (hkept : ∀ a ∈ l', key a < n → a ∈ l) :
    l' = l'.filter (fun a => n ≤ key a) ++ l.filter (· ∈ l') := by
  refine eq_of_newestFirst hl' ?_ fun a => ?_
  · rw [List.map_append, List.pairwise_append]
    refine ⟨hl'.sublist (List.filter_sublist.map key), hl.sublist (List.filter_sublist.map key), ?_⟩
    intro x hx y hy
    obtain ⟨a, ha, rfl⟩ := List.mem_map.mp hx
    obtain ⟨b, hb, rfl⟩ := List.mem_map.mp hy
    have hnew : n ≤ key a := of_decide_eq_true (List.mem_filter.mp ha).2
    exact Nat.lt_of_lt_of_le (hold b (List.mem_filter.mp hb).1) hnew
  · rw [List.mem_append, List.mem_filter, List.mem_filter, decide_eq_true_iff, decide_eq_true_iff]
    constructor
    · intro ha
      rcases Nat.lt_or_ge (key a) n with hlt | hge
      · exact .inr ⟨hkept a ha hlt, ha⟩
      · exact .inl ⟨ha, hge⟩
    · rintro (⟨ha, -⟩ | ⟨-, ha⟩) <;> exact ha

end NewestFirst

section Cells

variable {i : HeapId} {m : Moment} {l : Ledger}

/-- What a step places has newer numbers than all that is there. -/
theorem World.Turnover.newestFirst {w w' : World} {placed counted swept : List CellId}
    (ht : Turnover i w w' placed counted swept) (hl : l.Settled i w)
    (ho : ((w.idsOf i).map CellId.number).Pairwise (· > ·)) :
    ((w'.idsOf i).map CellId.number).Pairwise (· > ·) := by
  refine List.Pairwise.sublist (ht.order.map CellId.number) ?_
  rw [List.map_append, List.pairwise_append]
  refine ⟨pairwise_of_length_le_one (by simpa using ht.single), ho, ?_⟩
  intro x hx y hy
  obtain ⟨c, hc, rfl⟩ := List.mem_map.mp hx
  obtain ⟨d, hd, rfl⟩ := List.mem_map.mp hy
  have hnew := (ht.fresh c hc).2.1
  have hold := hl.lt_nextCell hd
  omega

/-- A ledger in which cells stand in the order in which they were placed. -/
structure Ledger.Ordered (l : Ledger) (i : HeapId) (w : World) : Prop where
  placed : (l.placed.map CellId.number).Pairwise (· > ·)
  listed : ((w.idsOf i).map CellId.number).Pairwise (· > ·)

theorem Moment.Run.ordered (hr : Moment.Run i m l) : l.Ordered i m.world := by
  induction hr with
  | start configs dropOrder =>
      have hnone : (World.new configs dropOrder).idsOf i = [] :=
        List.append_eq_nil_iff.mp (settled_start configs dropOrder i).conserved.eq_nil |>.1
      exact ⟨.nil, by rw [hnone]; exact .nil⟩
  | @step m m' l hr hs ih =>
      have hl := hr.settled
      obtain ⟨placed, counted, swept, ht⟩ := hs.turnover hr.reachable.balanced i
      have hlisted := ht.newestFirst hl ih.listed
      refine ⟨?_, hlisted⟩
      rw [Ledger.enter, List.map_append, List.pairwise_append]
      refine ⟨hlisted.sublist (List.filter_sublist.map _), ih.placed, ?_⟩
      intro x hx y hy
      obtain ⟨c, hc, rfl⟩ := List.mem_map.mp hx
      obtain ⟨d, hd, rfl⟩ := List.mem_map.mp hy
      have hnew := (ht.fresh c ((ht.perm_placed hl).mem_iff.mp hc)).2.1
      have hold := (hl.issued d hd).2
      omega

/-- The cells of a heap are those that were placed and are not gone, in the order in which they
were placed. -/
theorem Moment.Run.idsOf_eq (hr : Moment.Run i m l) :
    m.world.idsOf i = l.placed.filter (· ∉ l.gone) := by
  have hl := hr.settled
  obtain ⟨hplaced, hlisted⟩ := hr.ordered
  refine eq_of_newestFirst hlisted (hplaced.sublist (List.filter_sublist.map _)) fun c => ?_
  rw [List.mem_filter, decide_eq_true_iff, ← hl.conserved.mem_iff, List.mem_append]
  constructor
  · exact fun hc => ⟨.inl hc, hl.not_mem_gone hc⟩
  · exact fun ⟨hc, hgone⟩ => hc.resolve_right hgone

end Cells

namespace World

variable {P : Permit} {w w' : World} {i : HeapId} {h : Heap}

theorem Acts.enlists {placed : Option CellId} {r : Reclamation}
    (ha : Acts P i h placed r w w') :
    HeapsTurn (fun h h' => ∃ n ≤ 1, h.Enlists n h') w w' := by
  obtain ⟨hi, hact, -, rfl⟩ := ha
  exact .setHeap (fun h => ⟨0, Nat.zero_le 1, .refl h⟩) hi hact.enlists

theorem Move.enlists (hm : Move P w w') :
    HeapsTurn (fun h h' => ∃ n ≤ 1, h.Enlists n h') w w' := by
  rcases hm.act with hidle | ⟨i, h, placed, r, ha⟩
  · exact .of_heaps (fun h => ⟨0, Nat.zero_le 1, .refl h⟩) hidle.heaps
  · exact ha.enlists

theorem enlists_trans {w'' : World} (hw : HeapsTurn (fun h h' => ∃ n, h.Enlists n h') w w')
    (hw' : HeapsTurn (fun h h' => ∃ n, h.Enlists n h') w' w'') :
    HeapsTurn (fun h h' => ∃ n, h.Enlists n h') w w'' :=
  hw.trans (fun ⟨_, he⟩ ⟨_, he'⟩ => ⟨_, he.trans he'⟩) hw'

theorem Moves.enlists (hm : Moves P w w') : HeapsTurn (fun h h' => ∃ n, h.Enlists n h') w w' :=
  hm.lift (fun _ => .of_heaps (fun h => ⟨0, .refl h⟩) rfl) enlists_trans
    fun hone => hone.enlists.imp fun ⟨n, _, he⟩ => ⟨n, he⟩

theorem enlists_settle (w : World) (chores : List Chore) :
    HeapsTurn (Heap.Enlists 0) w (w.settle chores) := by
  fun_induction settle w chores with
  | case1 w => exact .of_heaps Heap.Enlists.refl rfl
  | case2 w c rest ih =>
      have hone := turn_chore Heap.Enlists.refl Heap.enlists_dropRoot Heap.enlists_dropAnchor w c
      exact hone.trans Heap.Enlists.trans ih

end World

namespace Moment

/-- The roots on the heap `i` that something owns: whoever holds them, a binding, or the write
that is under way. -/
def rootsOn (m : Moment) (i : HeapId) : List Root :=
  rootsIn i (listedRoots (heldRoots m.held ++ m.world.bound) m.write)

/-- The roots on the heap `i` that something owns at `m'`, and nothing at `m`. -/
def gained (m m' : Moment) (i : HeapId) : List Root :=
  (m'.rootsOn i).filter fun r => r ∉ m.rootsOn i

variable {m m' : Moment} {i : HeapId} {h : Heap} {r : Root}

theorem mem_gained : r ∈ gained m m' i ↔ r ∈ m'.rootsOn i ∧ r ∉ m.rootsOn i := by
  rw [gained, List.mem_filter, decide_eq_true_iff]

theorem Step.enlists (hs : Step m m') :
    World.HeapsTurn (fun h h' => ∃ n ≤ 1, h.Enlists n h') m.world m'.world := by
  rcases hs.acts with hheaps | ⟨i, h, placed, r, ha⟩
  · exact .of_heaps (fun h => ⟨0, Nat.zero_le 1, .refl h⟩) hheaps
  · exact ha.enlists

theorem Balanced.roots_perm (hb : m.Balanced) (hi : m.world.heap? i = some h) :
    h.roots.toList.Perm ((m.rootsOn i).map Root.entry) := by
  rw [rootsOn, World.Balanced.rootsIn_listedRoots hb]
  exact (World.Balanced.heap hb i h hi).listed.roots

theorem Balanced.mem_rootsOn (hb : m.Balanced) (hi : m.world.heap? i = some h) :
    r ∈ m.rootsOn i ↔ h.roots.find? r.ticket = some r.cell := by
  rw [(World.Balanced.heap hb i h hi).listed.sound.find?_eq_some_iff,
    (hb.roots_perm hi).mem_iff]
  constructor
  · exact List.mem_map_of_mem
  · intro hm
    obtain ⟨⟨c, t⟩, hs, he⟩ := List.mem_map.mp hm
    cases he
    exact hs

theorem Balanced.home_of_rootsOn (hb : m.Balanced) (hr : r ∈ m.rootsOn i) :
    ∃ h, m.world.heap? i = some h := by
  obtain ⟨hr, hhome⟩ := List.mem_filter.mp hr
  obtain ⟨h, hi⟩ := World.Balanced.home_of_listed hb hr
  exact ⟨h, of_decide_eq_true hhome ▸ hi⟩

theorem Balanced.nodup_rootsOn (hb : m.Balanced) (i : HeapId) : (m.rootsOn i).Nodup := by
  cases hi : m.world.heap? i with
  | none =>
      have hnil : m.rootsOn i = [] := by
        refine List.eq_nil_iff_forall_not_mem.mpr fun r hr => ?_
        obtain ⟨h, hi'⟩ := hb.home_of_rootsOn hr
        cases hi.symm.trans hi'
      rw [hnil]
      exact .nil
  | some h =>
      have hnodup := ((hb.roots_perm hi).map Prod.fst).nodup_iff.mp
        (World.Balanced.heap hb i h hi).listed.sound.nodup
      exact .of_map _ (.of_map _ hnodup)

/-- On one heap the ticket tells which root it is. -/
theorem Balanced.eq_of_ticket (hb : m.Balanced) {s : Root} (hr : r ∈ m.rootsOn i)
    (hs : s ∈ m.rootsOn i) (ht : r.ticket = s.ticket) : r = s := by
  obtain ⟨h, hi⟩ := hb.home_of_rootsOn hr
  have hfind := (hb.mem_rootsOn hi).mp hr
  rw [ht, (hb.mem_rootsOn hi).mp hs, Option.some.injEq] at hfind
  obtain ⟨c, t⟩ := r
  obtain ⟨d, u⟩ := s
  simp only at ht hfind
  rw [ht, hfind]

/-- A root that nothing has owned before the step has the one ticket that the step has issued. -/
theorem Step.fresh (hs : Step m m') (hb : m.Balanced) (hr : r ∈ gained m m' i) :
    ∃ h h', m.world.heap? i = some h ∧ m'.world.heap? i = some h' ∧ r.ticket = h.nextTicket ∧
      h.nextTicket < h'.nextTicket := by
  have hb' := hs.balanced hb
  obtain ⟨hr, hnew⟩ := mem_gained.mp hr
  obtain ⟨h', hi'⟩ := hb'.home_of_rootsOn hr
  obtain ⟨h, hi, n, hn, he⟩ := hs.enlists.exists_of_some_right hi'
  have hfind := (hb'.mem_rootsOn hi').mp hr
  have hge : h.nextTicket ≤ r.ticket :=
    (he.entries _ _ hfind).resolve_left fun hold => hnew ((hb.mem_rootsOn hi).mpr hold)
  have hlisted := (World.Balanced.heap hb' i h' hi').listed
  have hlt : r.ticket < h'.nextTicket :=
    hlisted.tickets _ (hlisted.sound.find?_eq_some_iff.mp hfind)
  have hissued : h'.nextTicket ≤ h.nextTicket + 1 :=
    he.issued ▸ Nat.add_le_add_left hn _
  have heq : r.ticket = h.nextTicket :=
    Nat.le_antisymm (Nat.le_of_lt_succ (Nat.lt_of_lt_of_le hlt hissued)) hge
  exact ⟨h, h', hi, hi', heq, heq ▸ hlt⟩

theorem mem_rootsOn_of_held (hr : .root r ∈ m.held) (hhome : r.cell.heap = i) :
    r ∈ m.rootsOn i :=
  List.mem_filter.mpr ⟨List.mem_append_left _
    (List.mem_append_left _ (mem_heldRoots.mpr hr)), decide_eq_true hhome⟩

/-- When a ticket is issued, a root with that ticket comes to be owned. -/
theorem Step.issues (hs : Step m m') {h' : Heap} (hi : m.world.heap? i = some h)
    (hi' : m'.world.heap? i = some h') (hlt : h.nextTicket < h'.nextTicket) :
    ∃ r ∈ m'.rootsOn i, r.ticket = h.nextTicket := by
  -- elsewhere, and in all other steps, no ticket is issued
  have still : World.HeapsTurn (Heap.Enlists 0) m.world m'.world →
      ∃ r ∈ m'.rootsOn i, r.ticket = h.nextTicket := by
    intro hturn
    obtain ⟨k, hk, he⟩ := hturn.exists_of_some hi
    cases hi'.symm.trans hk
    exact absurd he.issued (Nat.ne_of_gt hlt)
  have other : m'.world.heap? i = m.world.heap? i →
      ∃ r ∈ m'.rootsOn i, r.ticket = h.nextTicket := by
    intro heq
    cases (hi'.symm.trans heq).trans hi
    exact absurd hlt (Nat.lt_irrefl _)
  cases hs with
  | permute hp => exact still (.of_heaps Heap.Enlists.refl rfl)
  | chore c =>
      exact still (World.turn_chore Heap.Enlists.refl Heap.enlists_dropRoot
        Heap.enlists_dropAnchor _ c)
  | @root w held c k hk hl =>
      by_cases hc : c.heap = i
      · subst hc
        cases hi.symm.trans hk
        have hroot := h.register_snd c
        exact ⟨(h.register c).2, mem_rootsOn_of_held List.mem_cons_self (by rw [hroot]),
          by rw [hroot]⟩
      · exact other (World.heap?_setHeap_of_ne hc w _)
  | @place w held j k v c hk ho hc =>
      by_cases hj : j = i
      · subst hj
        cases hi.symm.trans hk
        have hroot := h.place_root c v
        exact ⟨(h.place c v).1, mem_rootsOn_of_held
          (List.mem_append_right _ List.mem_cons_self) (by rw [hroot, hc]), by rw [hroot]⟩
      · exact other (World.heap?_setHeap_of_ne hj w _)
  | swap hk ho => exact still (.setHeap Heap.Enlists.refl hk (Heap.reworks_swap _ _ _).enlists)
  | finishWrite hk =>
      exact still (.commit Heap.Enlists.refl hk (Heap.Work.finishWrite _).enlists)
  | write hk hl ht hw =>
      exact still (.commit Heap.Enlists.refl hk (Heap.reworks_write _ hw).enlists)
  | append hk hl ht hw =>
      exact still (.commit Heap.Enlists.refl hk (Heap.reworks_append _ hw).enlists)
  | collectNow hk => exact still (.commit Heap.Enlists.refl hk (Heap.reworks_collectNow _).enlists)
  | shareEnv he => exact still (.of_heaps Heap.Enlists.refl rfl)
  | @newEnv w held parent hp =>
      exact still (.of_heaps Heap.Enlists.refl (by cases parent <;> rfl))
  | rebind he => exact still (.of_heaps Heap.Enlists.refl rfl)
  | forgetEvents => exact still (.of_heaps Heap.Enlists.refl rfl)

/-- Only one root can have the one ticket. -/
theorem Step.gained_eq (hs : Step m m') (hb : m.Balanced) (hr : r ∈ gained m m' i) :
    gained m m' i = [r] := by
  have hb' := hs.balanced hb
  have hnodup : (gained m m' i).Nodup := (hb'.nodup_rootsOn i).filter _
  rw [← List.perm_singleton,
    List.perm_ext_iff_of_nodup hnodup (List.pairwise_singleton _ r)]
  intro s
  rw [List.mem_singleton]
  constructor
  · intro hs'
    obtain ⟨h, -, hi, -, hticket, -⟩ := hs.fresh hb hr
    obtain ⟨k, -, hk, -, hticket', -⟩ := hs.fresh hb hs'
    cases hi.symm.trans hk
    exact hb'.eq_of_ticket (mem_gained.mp hs').1 (mem_gained.mp hr).1
      (hticket'.trans hticket.symm)
  · rintro rfl
    exact hr

/-- A step registers a root for each ticket that it issues, which is one at most. -/
theorem Step.registers (hs : Step m m') (hb : m.Balanced) {h' : Heap}
    (hi : m.world.heap? i = some h) (hi' : m'.world.heap? i = some h') :
    (gained m m' i).map Root.ticket ++ (List.range h.nextTicket).reverse =
      (List.range h'.nextTicket).reverse := by
  obtain ⟨k, hk, n, hn, he⟩ := hs.enlists.exists_of_some hi
  cases hi'.symm.trans hk
  rcases Nat.le_one_iff_eq_zero_or_eq_one.mp hn with rfl | rfl
  · have hnone : gained m m' i = [] := by
      refine List.eq_nil_iff_forall_not_mem.mpr fun r hr => ?_
      obtain ⟨k, k', hk, hk', -, hlt⟩ := hs.fresh hb hr
      cases hi.symm.trans hk
      cases hi'.symm.trans hk'
      exact Nat.ne_of_lt hlt he.issued.symm
    rw [hnone, he.issued]
    rfl
  · obtain ⟨r, hr, hticket⟩ := hs.issues hi hi' (he.issued ▸ Nat.lt_succ_self _)
    have hnew : r ∉ m.rootsOn i := fun hm =>
      Nat.ne_of_lt ((World.Balanced.heap hb i h hi).listed.tickets _
        ((hb.roots_perm hi).mem_iff.mpr (List.mem_map_of_mem hm))) hticket
    rw [hs.gained_eq hb (mem_gained.mpr ⟨hr, hnew⟩), he.issued, List.range_succ,
      List.reverse_append, List.map_singleton, hticket]
    rfl

end Moment

/-- The roots of a heap over a run: all that were registered, and those of them that were
removed. -/
structure Roll where
  registered : List Root
  removed : List Root

namespace Roll

def blank : Roll :=
  { registered := [], removed := [] }

/-- Enter the roots on the heap `i` that have come to be owned, and those that are owned no
more. -/
def enter (l : Roll) (i : HeapId) (m m' : Moment) : Roll :=
  { registered := Moment.gained m m' i ++ l.registered
    removed := Moment.gained m' m i ++ l.removed }

/-- The roll agrees with a moment: a root was registered for each ticket that was issued, in the
order of the tickets, and what was registered and is not removed is owned. -/
structure Settled (l : Roll) (i : HeapId) (m : Moment) : Prop where
  tickets : ∀ h, m.world.heap? i = some h →
    l.registered.map Root.ticket = (List.range h.nextTicket).reverse
  removed : l.removed ⊆ l.registered
  owned : ∀ r, r ∈ m.rootsOn i ↔ r ∈ l.registered ∧ r ∉ l.removed

variable {l : Roll} {i : HeapId} {m m' : Moment} {r : Root} {h : Heap}

namespace Settled

theorem order (hl : l.Settled i m) (hi : m.world.heap? i = some h) :
    (l.registered.map Root.ticket).Pairwise (· > ·) := by
  rw [hl.tickets h hi, List.pairwise_reverse]
  exact List.pairwise_lt_range

theorem issued (hl : l.Settled i m) (hi : m.world.heap? i = some h) (hr : r ∈ l.registered) :
    r.ticket < h.nextTicket := by
  have hmem := List.mem_map_of_mem (f := Root.ticket) hr
  rw [hl.tickets h hi, List.mem_reverse, List.mem_range] at hmem
  exact hmem

/-- What a step registers was not registered before. -/
theorem not_registered (hl : l.Settled i m) (hs : Moment.Step m m') (hb : m.Balanced)
    (hr : r ∈ Moment.gained m m' i) : r ∉ l.registered := by
  intro hm
  obtain ⟨h, -, hi, -, hticket, -⟩ := hs.fresh hb hr
  exact Nat.ne_of_lt (hl.issued hi hm) hticket

/-- Entering a step keeps the roll in agreement with what is owned. -/
theorem enter (hl : l.Settled i m) (hs : Moment.Step m m') (hb : m.Balanced) :
    (l.enter i m m').Settled i m' := by
  constructor
  case tickets =>
    intro h' hi'
    obtain ⟨h, hi, -⟩ := hs.enlists.exists_of_some_right hi'
    rw [Roll.enter, List.map_append, hl.tickets h hi]
    exact hs.registers hb hi hi'
  case removed =>
    intro r hr
    refine List.mem_append_right _ ?_
    rcases List.mem_append.mp hr with hr | hr
    · exact ((hl.owned r).mp (Moment.mem_gained.mp hr).1).1
    · exact hl.removed hr
  case owned =>
    intro r
    simp only [Roll.enter, List.mem_append, Moment.mem_gained, not_or, not_and, not_not]
    by_cases hold : r ∈ m.rootsOn i
    · obtain ⟨hreg, hrem⟩ := (hl.owned r).mp hold
      simp only [hold, not_true, and_false, false_or, hreg, true_and, forall_const, hrem,
        not_false_iff, and_true]
    · constructor
      · intro hr
        exact ⟨.inl ⟨hr, hold⟩, fun hm => absurd hm hold, fun hrem =>
          hl.not_registered hs hb (Moment.mem_gained.mpr ⟨hr, hold⟩) (hl.removed hrem)⟩
      · rintro ⟨⟨hr, -⟩ | hreg, -, hrem⟩
        · exact hr
        · exact absurd ((hl.owned r).mpr ⟨hreg, hrem⟩) hold

end Settled

end Roll

namespace Moment

/-- A run with its roll of the heap `i`. -/
inductive Enrols (i : HeapId) : Moment → Roll → Prop
  | start (configs : Array Config) (dropOrder : EnvId → DropOrder) :
      Enrols i ⟨World.new configs dropOrder, [], none⟩ .blank
  | step {m m' : Moment} {l : Roll} (hr : Enrols i m l) (hs : Step m m') :
      Enrols i m' (l.enter i m m')

variable {i : HeapId} {m : Moment} {l : Roll} {h : Heap}

theorem Enrols.reachable (hr : Enrols i m l) : m.Reachable := by
  induction hr with
  | start configs dropOrder => exact .start configs dropOrder
  | step _ hs ih => exact ih.step hs

/-- Every moment is that of a run with a roll. -/
theorem Reachable.enrols (hr : m.Reachable) (i : HeapId) : ∃ l, Enrols i m l := by
  induction hr with
  | start configs dropOrder => exact ⟨_, .start configs dropOrder⟩
  | step _ hs ih =>
      obtain ⟨l, hl⟩ := ih
      exact ⟨_, hl.step hs⟩

/-- The roll agrees with every moment of every run. -/
theorem Enrols.settled (hr : Enrols i m l) : l.Settled i m := by
  induction hr with
  | start configs dropOrder =>
      refine ⟨fun h hi => ?_, List.Subset.refl _, fun r => ?_⟩
      · simp only [World.heap?, World.new, Array.getElem?_map, Option.map_eq_some_iff] at hi
        obtain ⟨config, -, rfl⟩ := hi
        rfl
      constructor
      · intro hr
        cases hr
      · rintro ⟨hr, -⟩
        cases hr
  | step hr hs ih => exact ih.enter hs hr.reachable.balanced

/-- The root list has the entries of the roots that were registered and are not removed, in the
order in which they were registered. -/
theorem Enrols.roots_eq (hr : Enrols i m l) (hi : m.world.heap? i = some h) :
    h.roots.toList = (l.registered.filter (· ∉ l.removed)).map Root.entry := by
  have hl := hr.settled
  have hb := hr.reachable.balanced
  refine eq_of_newestFirst (World.Balanced.heap hb i h hi).listed.newestFirst ?_ fun p => ?_
  · rw [List.map_map]
    exact (hl.order hi).sublist (List.filter_sublist.map _)
  · rw [(hb.roots_perm hi).mem_iff, List.mem_map, List.mem_map]
    refine exists_congr fun r => and_congr_left' ?_
    rw [List.mem_filter, decide_eq_true_iff]
    exact hl.owned r

end Moment

end HybridHeap
