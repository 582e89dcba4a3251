import HybridHeap.Proofs.Session.Scoping
import HybridHeap.Proofs.World.Lists

/-!
The list operation. Each item gives up its root for the slot of a pair, whatever collections
the pairs start, and no item is without an owner meanwhile. The pairs belong to the one handle
that is answered, so that dropping it gives up what the items referred to and nothing else.
-/

namespace HybridHeap

namespace World

variable {w w' w'' : World} {held : List Holding} {i : HeapId} {given : List Handle}
  {cells : List CellId} {items : List Slot} {x : Handle} {n : Node}

section Walking

/-- From pair to pair by the second of each: the pairs on the way, and their firsts. The handle
that the walk ends with is null. -/
inductive Walk : World → Handle → List CellId → List Slot → Prop
  | stop (w : World) : Walk w none [] []
  | pair {w w₁ w₂ : World} {r : Root} {item next : Handle} {cells : List CellId}
      {items : List Slot} (hfirst : w.get (some r) .first = (w₁, .ok item))
      (hsecond : w₁.get (some r) .second = (w₂, .ok next)) (hw : Walk w₂ next cells items) :
      Walk w (some r) (r.cell :: cells) (item.target :: items)

theorem get_of_pair {r : Root} {a b : Slot} (hv : w.readCell r.cell = .pair a b) :
    w.get (some r) .first = ((w.root a).1, .ok (w.root a).2) ∧
      w.get (some r) .second = ((w.root b).1, .ok (w.root b).2) := by
  simp only [get, Handle.target, Option.map_some, hv, Value.get, and_self]

/-- A new root of something alive takes nothing away from a list. -/
theorem ListAt.root {s t : Slot} (hl : w.ListAt cells items s) (hb : w.Balanced held none)
    (ht : ∀ c ∈ t, w.Live c) : (w.root t).2.target = t ∧
      (∃ held', (w.root t).1.Balanced held' none) ∧ (w.root t).1.ListAt cells items s := by
  obtain ⟨htarget, hb', hkeeps, halive⟩ := hb.root ht
  exact ⟨htarget, ⟨_, hb'⟩, hl.of_keeps hb' (fun c _ => hkeeps _) fun c hc =>
    halive (.cell c) (hl.live (hl.mem_cells c hc))⟩

/-- A list can be walked, though every step makes new roots. -/
theorem ListAt.walk {s : Slot} (hl : w.ListAt cells items s) (hx : x.target = s)
    (hb : w.Balanced held none) : Walk w x cells items := by
  induction cells generalizing w x items held s with
  | nil =>
      subst hx
      cases x with
      | none =>
          cases hl
          exact .stop w
      | some r => cases hl
  | cons c cells ih =>
      subst hx
      cases x with
      | none => cases hl
      | some r =>
          cases hl with
          | @cons _ _ item next items hlive hv hrest =>
              have hall : w.ListAt (r.cell :: cells) (item :: items) (some r.cell) :=
                .cons hlive hv hrest
              obtain ⟨hitem, ⟨held₁, hb₁⟩, hall₁⟩ :=
                hall.root hb (hall.live_item hb item List.mem_cons_self)
              cases hall₁ with
              | cons hlive₁ hv₁ hrest₁ =>
                  -- the walk goes on from a new root of the next pair
                  obtain ⟨hnext, ⟨held₂, hb₂⟩, hrest₂⟩ := hrest₁.root hb₁ fun d hd =>
                    hrest₁.live (hrest₁.mem_cells d hd)
                  have hw := Walk.pair (get_of_pair hv).1 (get_of_pair hv₁).2
                    (ih hrest₂ hnext hb₂)
                  rwa [hitem] at hw

end Walking

section Dropping

/-- When the last reference to the first pair goes, all pairs go. -/
theorem ListAt.gone {s : Slot} {due : List Holding} (hl : w.ListAt cells items s)
    (hsingle : ∀ c ∈ cells, w.tally (.cell c) = 1) (hb : w.Balanced (due ++ held) none)
    (hb' : w'.Balanced held none) (hs : w.Shrinks w')
    (hlast : ∀ c ∈ s, Node.cell c ∈ (w.gone w').flatMap w.refs ++ due.map Holding.node) :
    ∀ c ∈ cells, ¬w'.Live c := by
  induction hl with
  | nil => exact fun c hc => by cases hc
  | @cons c cells item next items hlive hv hl ih =>
      have hdead : ¬w'.Live c := by
        intro hc
        have hgive := hb'.tally_give hb
          (fun n hn => ⟨(hs.keeps n).alive hn, (hs.keeps n).refs_eq hn⟩) (n := .cell c) hc
        have hpos := hb'.tally_pos hc
        have hcount := List.count_pos_iff.mpr (hlast c rfl)
        rw [List.count_append] at hcount
        have hone := hsingle c List.mem_cons_self
        omega
      intro d hd
      rcases List.mem_cons.mp hd with rfl | hd
      · exact hdead
      · refine ih (fun d hd => hsingle d (List.mem_cons_of_mem c hd)) (fun e he => ?_) d hd
        -- the next pair was referred to by this one
        refine List.mem_append_left _ (List.mem_flatMap.mpr ⟨.cell c, ?_, ?_⟩)
        · exact (hb.mem_gone hb').mpr ⟨hlive, hdead⟩
        · rw [refs, hv]
          refine List.mem_append_left _ (List.mem_map_of_mem ?_)
          refine List.mem_filterMap.mpr ⟨next, ?_, he⟩
          exact List.mem_cons_of_mem item List.mem_cons_self

/-- The references of what is gone, if all pairs of a list are: those to the items, and those
of everything else. -/
theorem ListAt.count_gone {s : Slot} (hl : w.ListAt cells items s) (hdistinct : cells.Nodup)
    (hb : w.Balanced held none) {held' : List Holding} (hb' : w'.Balanced held' none)
    (hdead : ∀ c ∈ cells, ¬w'.Live c) (hn : w'.Alive n) :
    ((w.gone w').flatMap w.refs).count n =
      (((w.gone w').filter (· ∉ cells.map Node.cell)).flatMap w.refs).count n +
        ((items.filterMap id).map Node.cell).count n := by
  have hcells : ((w.gone w').filter (· ∈ cells.map Node.cell)).Perm (cells.map Node.cell) := by
    have hgone : (w.gone w').Nodup := hb.nodup_nodes.filter _
    refine (List.perm_ext_iff_of_nodup (hgone.filter _)
      (hdistinct.map Node.cell_injective)).mpr fun m => ?_
    rw [List.mem_filter, decide_eq_true_eq, and_iff_right_iff_imp, hb.mem_gone hb']
    intro hm
    obtain ⟨c, hc, rfl⟩ := List.mem_map.mp hm
    exact ⟨hl.live hc, hdead c hc⟩
  have hne : ∀ c ∈ cells, n ≠ .cell c := by
    rintro c hc rfl
    exact hdead c hc hn
  have hsplit := ((List.filter_append_perm (· ∈ cells.map Node.cell) (w.gone w')).flatMap_right
    w.refs).count_eq n
  rw [List.flatMap_append, List.count_append, (hcells.flatMap_right w.refs).count_eq n,
    hl.count_refs hne] at hsplit
  simp only [decide_not]
  omega

end Dropping

/-- What the list operation on the heap `i` makes of its items: `x` is the handle that it
answers, and `cells` are the pairs. -/
structure ListBuilt (w : World) (i : HeapId) (given : List Handle) (x : Handle)
    (cells : List CellId) (w' : World) : Prop where
  /-- One pair for each item. -/
  shape : w'.ListAt cells (given.map Handle.target) x.target ∧ cells.length = given.length ∧
    cells.Nodup ∧ ∀ c ∈ cells, ¬w.Live c
  walked : Walk w' x cells (given.map Handle.target)
  empty : given = [] → x = none ∧ w' = w
  /-- The heap allocates the pairs, and no heap anything else. -/
  allocations : ∀ j h, w.heap? j = some h → ∃ h', w'.heap? j = some h' ∧
    h'.counters.allocations = h.counters.allocations + if j = i then given.length else 0
  others : ∀ n, n ∉ cells.map Node.cell → w.Keeps w' n
  /-- The root of the result is the newest. The roots of the items were on the list, one for
  each that is not null, and are gone from it; all other entries stay in their order, without
  those of scopes that are gone. -/
  listed : ∀ r ∈ x, ∀ h h', w.heap? i = some h → w'.heap? i = some h' →
    ((given.filterMap id).map Root.entry).Nodup ∧
    (∀ a ∈ given.filterMap id, a.entry ∈ h.roots.toList) ∧
    ∃ rest, h'.roots.toList = r.entry :: rest ∧ rest.Sublist h.roots.toList ∧
      (∀ a ∈ given.filterMap id, a.ticket ∉ rest.map Prod.fst) ∧
      ∀ p ∈ h.roots.toList, p ∉ rest → p ∈ (given.filterMap id).map Root.entry ∨
        ∃ (e : EnvId) (env : Environment), w.envs[e]? = some env ∧ ¬w'.Alive (.scope e) ∧
          p ∈ env.roots.map Root.entry
  /-- Every count is as before, less the references of what is gone, and every pair is referred
  to once. -/
  counts : (∀ n, w.Alive n → w'.Alive n →
      w'.tally n + ((w.gone w').flatMap w.refs).count n = w.tally n) ∧
    ∀ c ∈ cells, w'.tally (.cell c) = 1
  /-- At any time every item is alive, and nothing that was there before has changed. -/
  passed : ∀ w₁, Building i w none given.reverse w₁ →
    (∀ a ∈ given.filterMap id, w₁.Live a.cell) ∧ ∀ n, w.Alive n → w.Keeps w₁ n
  ended : Building i w none given.reverse w'

/-- What dropping such a list leads to. -/
structure ListDropped (w : World) (i : HeapId) (given : List Handle) (x : Handle)
    (cells : List CellId) (w' w'' : World) : Prop where
  pairs : ∀ c ∈ cells, ¬w''.Live c
  /-- The references of the items are given up, and those of what is gone besides the pairs. -/
  counts : ∀ n, w''.Alive n → w''.tally n +
      (((w'.gone w'').filter (· ∉ cells.map Node.cell)).flatMap w'.refs).count n +
        (((given.map Handle.target).filterMap id).map Node.cell).count n = w'.tally n
  /-- In the end it is as if the items had been dropped. -/
  balance : ∀ n, w.Alive n → w''.Alive n →
    w''.tally n + ((w.gone w'').flatMap w.refs).count n +
      (((given.map Handle.target).filterMap id).map Node.cell).count n = w.tally n
  unlisted : ∀ r ∈ x, ∀ h'', w''.heap? i = some h'' → r.ticket ∉ h''.roots.toList.map Prod.fst

/-- The items lose their roots to the slots, and the newest root is the one of the result. -/
theorem Chain.listed {r : Root} {h h' : Heap}
    (hb : w.Balanced (given.flatMap Handle.holdings ++ held) none)
    (hb' : w'.Balanced (.root r :: held) none) (hs : Chain w i given cells (some r) w')
    (hgiven : ∀ y ∈ given, ∀ r ∈ y, r.cell.heap = i) (hi : w.heap? i = some h)
    (hi' : w'.heap? i = some h') :
    ((given.filterMap id).map Root.entry).Nodup ∧
    (∀ a ∈ given.filterMap id, a.entry ∈ h.roots.toList) ∧
    ∃ rest, h'.roots.toList = r.entry :: rest ∧ rest.Sublist h.roots.toList ∧
      (∀ a ∈ given.filterMap id, a.ticket ∉ rest.map Prod.fst) ∧
      ∀ p ∈ h.roots.toList, p ∉ rest → p ∈ (given.filterMap id).map Root.entry ∨
        ∃ (e : EnvId) (env : Environment), w.envs[e]? = some env ∧ ¬w'.Alive (.scope e) ∧
          p ∈ env.roots.map Root.entry := by
  -- the items are owned as they would be by a vector of them
  have hvector : w.Balanced ((Value.vector given.toArray).holdings ++ held) none := by
    rwa [holdings_vector]
  have hanchors : (Value.vector given.toArray).anchors = given.filterMap id := rfl
  have ho : ownsAll i (.vector given.toArray) = true := by
    rw [ownsAll, List.all_eq_true, hanchors]
    intro a ha
    obtain ⟨y, hy, hya⟩ := List.mem_filterMap.mp ha
    exact decide_eq_true (hgiven y hy a hya)
  have hlisted := (hvector.heap_of_value hi ho).listed
  have hnewest := hvector.newest_listed hi ho hb' (fun e => hs.keeps (.scope e) (by simp))
    (hs.home r rfl) (hs.newest r rfl h hi) hi'
  rw [hanchors] at hlisted hnewest
  refine ⟨?_, fun a ha => hlisted.mem_roots_iff.mpr ⟨a, List.mem_append_left _ ha, rfl⟩, hnewest⟩
  have hnodup := hlisted.nodup_tickets
  rw [listedRoots_none, List.map_append, List.nodup_append] at hnodup
  refine List.Nodup.of_map Prod.fst ?_
  rw [List.map_map]
  exact hnodup.1

/-- Without items there are no pairs, and the result is null. -/
theorem Chain.eq_none (hs : Chain w i [] cells x w') : x = none := by
  have hlist := hs.list
  have hnil : cells = [] := List.eq_nil_of_length_eq_zero hs.list.length_eq
  rw [hnil] at hlist
  cases x with
  | none => rfl
  | some r => cases hlist

section Results

variable (hb : w.Balanced (given.flatMap Handle.holdings ++ held) none)
  (hb' : w'.Balanced (x.holdings ++ held) none) (hs : Chain w i given cells x w')

include hb hb' hs

/-- The handles of the items are exchanged for slots, which brings no count out of step. -/
theorem Chain.tally_eq (hn : w.Alive n) (hn' : w'.Alive n) :
    w'.tally n + ((w.gone w').flatMap w.refs).count n = w.tally n := by
  have hfresh : ∀ c ∈ cells, ¬w.Live c := fun c hc hlive =>
    hb.not_fresh_of_alive (n := .cell c) hlive (hs.fresh c hc)
  have hne : ∀ c ∈ cells, n ≠ .cell c := by
    rintro c hc rfl
    exact hfresh c hc hn
  have hresult : (x.holdings.map Holding.node).count n = 0 := by
    rw [List.count_eq_zero, Handle.node_holdings, List.mem_map]
    rintro ⟨c, hc, rfl⟩
    exact hne c (hs.list.mem_cells c (Option.mem_toList.mp hc)) rfl
  have htransfer := hb.tally_transfer hb' (cells.map Node.cell) []
    (hs.distinct.map Node.cell_injective) (fun m hm => ?_) .nil (fun m hm => by cases hm)
    (fun m hm hm' => ?_) hn hn'
  · rw [hs.list.count_refs hne, ← node_flatMap_holdings, List.map_append, List.count_append,
      List.map_append, List.count_append, hresult, List.flatMap_nil, List.flatMap_nil,
      List.count_nil] at htransfer
    omega
  · obtain ⟨c, hc, rfl⟩ := List.mem_map.mp hm
    exact ⟨hs.list.live hc, hfresh c hc⟩
  · have hkeeps := hs.keeps m hm'
    exact ⟨hkeeps.alive hm, fun _ => hkeeps.refs_eq hm⟩

theorem Chain.dropped : ListDropped w i given x cells w' (w'.drop x) := by
  obtain ⟨hshrinks, hb''⟩ := hb'.shrinks_drop
  generalize w'.drop x = w'' at hshrinks hb''
  have hdead : ∀ c ∈ cells, ¬w''.Live c := by
    refine hs.list.gone hs.single hb' hb'' hshrinks fun c hc => List.mem_append_right _ ?_
    rw [Handle.node_holdings]
    exact List.mem_map_of_mem (Option.mem_toList.mpr hc)
  have hless : ∀ m, w''.Alive m → w'.Alive m ∧ w''.refs m = w'.refs m := fun m hm =>
    ⟨(hshrinks.keeps m).alive hm, (hshrinks.keeps m).refs_eq hm⟩
  constructor
  case pairs => exact hdead
  case counts =>
    intro n hn
    have hgive := hb''.tally_give hb' hless hn
    have hresult : (x.holdings.map Holding.node).count n = 0 := by
      rw [List.count_eq_zero, Handle.node_holdings, List.mem_map]
      rintro ⟨c, hc, rfl⟩
      exact hdead c (hs.list.mem_cells c (Option.mem_toList.mp hc)) hn
    rw [hs.list.count_gone hs.distinct hb' hb'' hdead hn, hresult] at hgive
    omega
  case balance =>
    intro n hn hn''
    have hback : ∀ m, w''.Alive m → w.Alive m ∧ w''.refs m = w.refs m := by
      intro m hm
      have hne : m ∉ cells.map Node.cell := by
        rintro hmc
        obtain ⟨c, hc, rfl⟩ := List.mem_map.mp hmc
        exact hdead c hc hm
      have hkeeps := (hs.keeps m hne).trans (hshrinks.keeps m)
      exact ⟨hkeeps.alive hm, hkeeps.refs_eq hm⟩
    rw [← node_flatMap_holdings]
    exact hb''.tally_give hb hback hn''
  case unlisted =>
    intro r hr h'' hi''
    cases hr
    have hhome := hs.home r rfl
    subst hhome
    exact hb'.unlisted hb'' (bound_subset fun e => hshrinks.keeps (.scope e))
      List.mem_cons_self hi''

end Results

/-- A list is built of items of one heap without loss, whatever collections its pairs start, and
goes with its handle. -/
theorem list_built {h : Heap}
    (hm : Moment.Reachable ⟨w, given.flatMap Handle.holdings ++ held, none⟩)
    (hi : w.heap? i = some h) (hgiven : ∀ y ∈ given, ∀ r ∈ y, r.cell.heap = i) :
    ∃ x cells, (w.list i given).2 = .ok x ∧ ListBuilt w i given x cells (w.list i given).1 ∧
      ListDropped w i given x cells (w.list i given).1 ((w.list i given).1.drop x) := by
  have hb : w.Balanced (given.flatMap Handle.holdings ++ held) none := hm.balanced
  have hempty : given = [] → (w.list i given).1 = w := by
    rintro rfl
    rfl
  obtain ⟨x, cells, hx, hb', hs, hended⟩ := hb.list hi hgiven
  refine ⟨x, cells, hx, ?_, hs.dropped hb hb'⟩
  generalize (w.list i given).1 = w' at hb' hs hended hempty
  have hfresh : ∀ c ∈ cells, ¬w.Live c := fun c hc hlive =>
    hb.not_fresh_of_alive (n := .cell c) hlive (hs.fresh c hc)
  have hlength : cells.length = given.length :=
    hs.list.length_eq.trans (List.length_map _)
  constructor
  case shape => exact ⟨hs.list, hlength, hs.distinct, hfresh⟩
  case walked => exact hs.list.walk rfl hb'
  case empty =>
    rintro rfl
    exact ⟨hs.eq_none, hempty rfl⟩
  case allocations =>
    intro j k hj
    obtain ⟨k', hk', -, hcount⟩ := hs.heaps j k hj
    exact ⟨k', hk', hcount⟩
  case others => exact hs.keeps
  case listed =>
    intro r hr k k' hk hk'
    cases hr
    exact hs.listed hb hb' hgiven hk hk'
  case counts => exact ⟨fun n hn hn' => hs.tally_eq hb hb' hn hn', hs.single⟩
  case passed =>
    intro w₁ hp
    obtain ⟨hlive, hkeeps⟩ := (Chain.start w i).building hb hb.reversed hi
      (fun y hy => hgiven y (List.mem_reverse.mp hy)) hp
    refine ⟨fun a ha => ?_, hkeeps⟩
    obtain ⟨y, hy, hya⟩ := List.mem_filterMap.mp ha
    exact hlive y (List.mem_append_left _ (List.mem_reverse.mpr hy)) a hya
  case ended => exact hended

/-- A cell twice and null in between. Two of the three pairs start a collection. -/
theorem list_built_twice :
    let given : List Handle :=
      [some { cell := ⟨1, 0⟩, ticket := 0 }, none, some { cell := ⟨1, 0⟩, ticket := 1 }]
    let s := (([.allocate (.scalar .null) false (some "a"), .clone "a" (some "b")] : List Op).foldl
      (fun s op => (s.performOp 1 op).1) (Session.new [.own { initialCapacity := 0 }]))
    let w := s.world
    s.holdings = given.flatMap Handle.holdings ++ [] ∧
      ((w.list 1 given).1.heap? 1).map Heap.stats =
        some { counters := { allocations := 4, eagerFrees := 0, collections := 3, swept := 0 },
               liveObjects := 4, roots := 1, capacity := 6 } ∧
      ∃ x cells, (w.list 1 given).2 = .ok x ∧ ListBuilt w 1 given x cells (w.list 1 given).1 ∧
        ListDropped w 1 given x cells (w.list 1 given).1 ((w.list 1 given).1.drop x) := by
  intro given s w
  have hheld : s.holdings = given.flatMap Handle.holdings ++ [] := by
    unfold s given
    cbv
  have hs : s.Reachable := .op (.op (.new _ _) 1 _) 1 _
  obtain ⟨h, hi⟩ : ∃ h, w.heap? 1 = some h := by
    refine Option.isSome_iff_exists.mp ?_
    unfold w s
    cbv
  refine ⟨hheld, ?_, list_built (hheld ▸ hs.moment) hi ?_⟩
  · unfold w s given
    cbv
  · unfold given
    decide

end World

end HybridHeap
