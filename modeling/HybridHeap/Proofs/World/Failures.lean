import HybridHeap.Proofs.World.Confined
import HybridHeap.Proofs.World.Disposal
import HybridHeap.Proofs.World.Tally

/-!
Operations that fail. What is left of a world by a failure is compared with the world in
which what was handed over has been dropped and no drop checks a threshold: the failure
leaves the same cells and environments alive with the same counts, apart from garbage that
a collection has swept on the way. A failed write leaves the world as it was.
-/

namespace HybridHeap

open Unmanaged (Store)

/-- Muting does not disturb the balance. -/
theorem Heap.Balanced.muted {h : Heap} {held : List Root} {write : Option Writing}
    (hb : h.Balanced held write) : h.muted.Balanced held write where
  counted := hb.counted.congr rfl
  listed := { hb.listed with unmarked := hb.listed.unmarked }
  deferred := hb.deferred

namespace World

variable {w w' w₀ : World} {held rest : List Holding} {write : Option Writing} {n : Node}

section Muted

theorem closures_muted (w : World) : w.muted.closures = w.closures := by
  rw [closures, muted, Array.toList_map, List.flatMap_map]
  rfl

theorem Balanced.muted (hb : w.Balanced held write) : w.muted.Balanced held write where
  heap i h hi := by
    obtain ⟨k, hk, rfl⟩ := Option.map_eq_some_iff.mp ((w.heap?_muted i).symm.trans hi)
    exact (hb.heap i k hk).muted
  home r hr := by
    obtain ⟨h, hi⟩ := hb.home r hr
    exact ⟨h.muted, by rw [heap?_muted, hi, Option.map_some]⟩
  cells i h hi c hl := by
    obtain ⟨k, hk, rfl⟩ := Option.map_eq_some_iff.mp ((w.heap?_muted i).symm.trans hi)
    exact hb.cells i k hk c hl
  scopes := hb.scopes
  owners e := by
    rw [closures_muted]
    exact hb.owners e

theorem guarded_muted (w : World) : w.muted.Guarded := by
  intro i h hi
  obtain ⟨k, -, rfl⟩ := Option.map_eq_some_iff.mp ((w.heap?_muted i).symm.trans hi)
  exact .inl rfl

/-- Nothing changes when a world is muted. -/
theorem keeps_muted (w : World) (n : Node) : w.Keeps w.muted n := by
  cases n with
  | cell c =>
      intro h' cell' hi' hf'
      obtain ⟨h, hi, rfl⟩ := Option.map_eq_some_iff.mp ((w.heap?_muted c.heap).symm.trans hi')
      exact ⟨h, cell', hi, hf', rfl⟩
  | scope e => exact Keeps.refl w (.scope e)

/-- Nor when it is not muted any more. -/
theorem muted_keeps (w : World) (n : Node) : w.muted.Keeps w n := by
  cases n with
  | cell c =>
      intro h cell hi hf
      exact ⟨h.muted, cell, by rw [heap?_muted, hi, Option.map_some], hf, rfl⟩
  | scope e => exact Keeps.refl w (.scope e)

/-- A chore of a guarded world sweeps nothing. -/
theorem Guarded.unswept_doChore (hg : w.Guarded) (c : Chore) : w.Unswept (w.doChore c).1 := by
  have hturn : HeapsTurn (fun h h' => h.Guarded → h'.counters.swept = h.counters.swept) w
      (w.doChore c).1 := by
    refine turn_chore (fun _ _ => rfl) (fun h r hg => ?_) (fun h r _ => h.swept_dropAnchor r) w c
    rw [Heap.dropRoot_of_guarded hg]
    exact h.swept_dropAnchor r
  intro i
  cases hi : w.heap? i with
  | none =>
      have hnone := hturn i
      rw [hi] at hnone
      generalize hi' : (w.doChore c).1.heap? i = b at hnone
      cases hnone
      rw [countersOf, countersOf, hi, hi']
  | some h =>
      obtain ⟨h', hi', hswept⟩ := hturn.exists_of_some hi
      rw [countersOf_of_heap? hi, countersOf_of_heap? hi']
      exact hswept (hg i h hi)

theorem Guarded.unswept_settle (hg : w.Guarded) (chores : List Chore) :
    w.Unswept (w.settle chores) := by
  fun_induction World.settle w chores with
  | case1 w => exact fun _ => rfl
  | case2 w c rest ih =>
      exact fun i => (ih (hg.doChore c) i).trans (hg.unswept_doChore c i)

end Muted

/-- `w'` is left of `w` by an operation that failed, and `w₀` by only dropping what the
operation had taken over; `held` is what else is owned. -/
structure Abandoned (held : List Holding) (w w₀ w' : World) : Prop where
  /-- Nothing that the operation made is alive. -/
  fresh : ∀ n, n.Fresh w → ¬w'.Alive n
  /-- What is alive was there before, with the same value or the same bindings. -/
  keeps : ∀ n, w.Keeps w' n
  /-- What can be reached from what is owned is alive. -/
  kept : ∀ n ∈ held.map Holding.node, ∀ m, w.Leads n m → w'.Alive m
  /-- What was taken over has been dropped, with all that depends on it. -/
  dropped : ∀ n, w'.Alive n → w₀.Alive n
  /-- Counts are those after the drops, less the references of what else is gone. -/
  counts : ∀ n, w'.Alive n →
    w'.tally n + ((w₀.nodes.filter (· ∉ w'.nodes)).flatMap w₀.refs).count n = w₀.tally n
  /-- If no collection has swept anything, there is no difference. -/
  exact : w.Unswept w' → ∀ n, (w'.Alive n ↔ w₀.Alive n) ∧ w'.tally n = w₀.tally n

theorem keeps_of_dead (hn : ¬w'.Alive n) : w.Keeps w' n := by
  cases n with
  | cell c => exact fun h' cell' hi' hf' => absurd ⟨h', hi', cell', hf'⟩ hn
  | scope e => exact fun env' he' => absurd ⟨env', he'⟩ hn

theorem tally_of_dead (hn : ¬w.Alive n) : w.tally n = 0 := by
  cases n with
  | cell c =>
      rw [tally]
      cases hi : w.heap? c.heap with
      | none => rfl
      | some h =>
          cases hf : h.find? c with
          | none => exact Heap.countOf_of_none hf
          | some cell => exact absurd ⟨h, hi, cell, hf⟩ hn
  | scope e =>
      cases he : w.envs[e]? with
      | none => simp [tally, ownersOf, he]
      | some env => exact absurd ⟨env, he⟩ hn

/-- Work that is confined to what it makes, of which nothing is alive in the end, is given
up without a trace but for the chores that are due anyway. -/
theorem Balanced.abandoned {st : Store} {dues : List Chore}
    (hb : w.Balanced (dues.map Chore.holding ++ held) none)
    (hm : Mirrored ⟨w', held, none⟩ st) (hg : w.snapshot.Grows st)
    (hc : ∀ S : Set Node, (∀ n, n.Fresh w → n ∈ S) → Confined S held w w') :
    w.Abandoned held (w.muted.settle dues) w' := by
  have hb' : w'.Balanced held none := hm.balanced
  have hb₀ : (w.muted.settle dues).Balanced held none := hb.muted.settle
  have hfresh : ∀ n, n.Fresh w → ¬w'.Alive n := fun n hn ha =>
    hb.not_fresh_of_grows (List.subset_append_right _ _) hm hg ha hn
  have hkeeps : ∀ n, w.Keeps w' n := by
    intro n
    by_cases hn : w'.Alive n
    · exact (hc {n | ¬w'.Alive n} hfresh).keeps n (not_not_intro hn)
    · exact keeps_of_dead hn
  have hmuted : ∀ n, w.muted.Keeps (w.muted.settle dues) n := hb.muted.shrinks_settle.keeps
  have hkeeps₀ : ∀ n, w.Keeps (w.muted.settle dues) n := fun n =>
    (w.keeps_muted n).trans (hmuted n)
  -- what is alive after the failure is not orphaned by the drops
  have hdropped : ∀ n, w'.Alive n → (w.muted.settle dues).Alive n := by
    intro n hn
    by_contra hgone
    have hclosed : w.muted.OrphanClosed held {n | ¬w'.Alive n} :=
      hb'.orphanClosed_dead fun m _ he => ((w.muted_keeps m).trans (hkeeps m)).edge he
    have hsettled : Confined {n | ¬w'.Alive n} held w.muted (w.muted.settle dues) :=
      confined_settle hb.muted (List.Subset.refl held)
    have hn₀ : w.muted.Alive n := (w.muted_keeps n).alive ((hkeeps n).alive hn)
    exact hsettled.gone (w.guarded_muted.unswept_settle dues) hclosed n hn₀ hgone hn
  -- nor are more orphaned by the failure, as long as nothing is swept
  have hexact : w.Unswept w' → ∀ n, w'.Alive n ↔ (w.muted.settle dues).Alive n := by
    refine fun hu n => ⟨hdropped n, fun hn => ?_⟩
    by_contra hgone
    have hclosed : w.OrphanClosed held {n | ¬(w.muted.settle dues).Alive n} :=
      hb₀.orphanClosed_dead fun m _ he => (hkeeps₀ m).edge he
    have hnew : ∀ n, n.Fresh w → ¬(w.muted.settle dues).Alive n := fun n hfresh hn =>
      hb.not_fresh_of_alive ((hkeeps₀ n).alive hn) hfresh
    exact (hc _ hnew).gone hu hclosed n ((hkeeps₀ n).alive hn) hgone hn
  have hcounts : ∀ n, w'.Alive n → w'.tally n +
      (((w.muted.settle dues).nodes.filter (· ∉ w'.nodes)).flatMap
        (w.muted.settle dues).refs).count n = (w.muted.settle dues).tally n := by
    intro n hn
    refine hb'.tally_add hb₀ (fun m hm => ?_) hn
    have hm₀ := hdropped m hm
    exact ⟨hm₀, ((hkeeps m).refs_eq hm).trans ((hkeeps₀ m).refs_eq hm₀).symm⟩
  constructor
  case fresh => exact hfresh
  case keeps => exact hkeeps
  case kept => exact fun n hn m hp => hb'.alive_of_leads hkeeps (hb'.alive_of_held hn) hp
  case dropped => exact hdropped
  case counts => exact hcounts
  case exact =>
    refine fun hu n => ⟨hexact hu n, ?_⟩
    by_cases hn : w'.Alive n
    · have hnone : (w.muted.settle dues).nodes.filter (· ∉ w'.nodes) = [] := by
        refine List.filter_eq_nil_iff.mpr fun m hm => ?_
        have hm' : w'.Alive m := (hexact hu m).mpr (hb₀.mem_nodes.mp hm)
        rw [decide_eq_true_eq, not_not]
        exact hb'.mem_nodes.mpr hm'
      have hcount := hcounts n hn
      rwa [hnone, List.flatMap_nil, List.count_nil, Nat.add_zero] at hcount
    · rw [tally_of_dead hn, tally_of_dead fun hn₀ => hn ((hexact hu n).mpr hn₀)]

section Operations

variable {i : HeapId} {v : Value Handle} {items : List Handle} {h : Handle} {f : Failure}

/-- A failure that does nothing but drop what was handed over. -/
theorem abandoned_settle {dues : List Chore}
    (hm : Moment.Reachable ⟨w, dues.map Chore.holding ++ held, none⟩) :
    w.Abandoned held (w.muted.settle dues) (w.settle dues) := by
  have hb : w.Balanced (dues.map Chore.holding ++ held) none := hm.balanced
  exact hb.abandoned hm.mirrored.settle .refl fun S _ =>
    confined_settle hb (List.Subset.refl held)

theorem abandoned_dropAll (hm : Moment.Reachable ⟨w, items.flatMap Handle.holdings ++ held, none⟩) :
    w.Abandoned held (w.muted.dropAll items) (w.dropAll items) := by
  apply abandoned_settle
  rwa [map_holding_dropRoot]

theorem abandoned_discard (hm : Moment.Reachable ⟨w, v.holdings ++ held, none⟩) :
    w.Abandoned held (w.muted.discard v) (w.discard v) := by
  apply abandoned_settle
  rw [List.map_append, List.map_map, List.map_map]
  exact hm

theorem abandoned_allocate (hm : Moment.Reachable ⟨w, v.holdings ++ held, none⟩)
    (hf : (w.allocate i v).2 = .error f) :
    w.Abandoned held (w.muted.discard v) (w.allocate i v).1 := by
  unfold allocate at hf ⊢
  split at hf
  · split at hf <;> cases hf
  · rename_i ho
    rw [if_neg ho]
    exact abandoned_discard hm

theorem abandoned_set (hm : Moment.Reachable ⟨w, v.holdings ++ held, none⟩)
    (hf : (w.set h v).2 = .error f) :
    w.Abandoned held (w.muted.discard v) (w.set h v).1 := by
  unfold set at hf ⊢
  split at hf
  · exact abandoned_discard hm
  · rename_i c hc
    split at hf
    · cases hf
    · rename_i ho
      rw [if_neg ho]
      exact abandoned_discard hm

theorem abandoned_assign {e : EnvId} {name : String}
    (hm : Moment.Reachable ⟨w, h.holdings ++ held, none⟩)
    (hf : (w.assign e name h).2 = .error f) :
    w.Abandoned held (w.muted.drop h) (w.assign e name h).1 := by
  unfold assign at hf ⊢
  split at hf
  · refine abandoned_dropAll ?_
    rwa [List.flatMap_cons, List.flatMap_nil, List.append_nil]
  · cases hf

/-- A failure of an operation that has handles handed over, and that only adds to the world
and is confined to what it adds. -/
theorem abandoned_of_obtained {α β : Type} {own : α → List Holding} {bare : α → β}
    {out : World × Except Failure α} {out' : Store × Except Failure β}
    (hm : Moment.Reachable ⟨w, items.flatMap Handle.holdings ++ held, none⟩)
    (ho : Obtained own bare held out out') (hg : w.snapshot.Grows out'.1)
    (hc : ∀ S : Set Node, (∀ n, n.Fresh w → n ∈ S) → Confined S held w out.1)
    (hf : out.2 = .error f) : w.Abandoned held (w.muted.dropAll items) out.1 := by
  cases ho with
  | ok hm' => cases hf
  | error hm' =>
      refine Balanced.abandoned ?_ hm' hg hc
      rw [map_holding_dropRoot]
      exact hm.balanced

/-- The pairs that the list had already are given up with the items. -/
theorem abandoned_list (hm : Moment.Reachable ⟨w, items.flatMap Handle.holdings ++ held, none⟩)
    (hf : (w.list i items).2 = .error f) :
    w.Abandoned held (w.muted.dropAll items) (w.list i items).1 := by
  have hc : ∀ S : Set Node, (∀ n, n.Fresh w → n ∈ S) → Confined S held w (w.list i items).1 :=
    fun S hS => confined_list hm.mirrored (List.Subset.refl held) fun c hc => hS (.cell c) hc
  exact abandoned_of_obtained hm (hm.mirrored.list i)
    (Store.extends_list hm.knows_of_items i).grows hc hf

/-- The scope that the call had entered is given up with the arguments, bound or not. -/
theorem abandoned_bind {params : List String} {last : Option String} {parent : Option EnvId}
    (hm : Moment.Reachable ⟨w, items.flatMap Handle.holdings ++ held, none⟩)
    (hp : ∀ p ∈ parent, w.Alive (.scope p))
    (hf : (w.bind i params last items parent).2 = .error f) :
    w.Abandoned held (w.muted.dropAll items) (w.bind i params last items parent).1 := by
  have hb : w.Balanced (items.flatMap Handle.holdings ++ held) none := hm.balanced
  have hparent : ∀ p ∈ parent, p < w.snapshot.nextEnv := by
    intro p hmem
    obtain ⟨env, he⟩ := hp p hmem
    exact (hb.scopes p env he).1
  have hc : ∀ S : Set Node, (∀ n, n.Fresh w → n ∈ S) →
      Confined S held w (w.bind i params last items parent).1 :=
    fun S hS => confined_bind hm.mirrored (List.Subset.refl held) hp hS
  exact abandoned_of_obtained hm (hm.mirrored.bind i params last hp)
    (Store.extends_bind hm.knows_of_items hparent i params last).grows hc hf

/-- A write that fails has done nothing. -/
theorem edit_of_error {target : Handle}
    {change : Heap → CellId → Slot → Except AccessError Reclamation}
    (hf : (w.edit h target change).2 = .error f) : (w.edit h target change).1 = w := by
  generalize hout : w.edit h target change = out at hf ⊢
  unfold edit at hout
  split at hout
  · exact hout ▸ rfl
  · split at hout
    · split at hout
      · exact hout ▸ rfl
      · split at hout
        · exact hout ▸ rfl
        · subst hout
          cases hf
    · exact hout ▸ rfl

end Operations

/-- In the world `w`, with `held` owned outside of it, operations that fail are atomic: those
that write one reference leave the world as it was, and those that take over what is handed
over do not differ from dropping it. -/
structure Atomic (w : World) (held : List Holding) : Prop where
  write : ∀ h p target f, (w.write h p target).2 = .error f → (w.write h p target).1 = w
  push : ∀ h target f, (w.push h target).2 = .error f → (w.push h target).1 = w
  allocate : ∀ i v rest f, held.Perm (v.holdings ++ rest) → (w.allocate i v).2 = .error f →
    w.Abandoned rest (w.muted.discard v) (w.allocate i v).1
  list : ∀ i items rest f, held.Perm (items.flatMap Handle.holdings ++ rest) →
    (w.list i items).2 = .error f → w.Abandoned rest (w.muted.dropAll items) (w.list i items).1
  set : ∀ h v rest f, held.Perm (v.holdings ++ rest) → (w.set h v).2 = .error f →
    w.Abandoned rest (w.muted.discard v) (w.set h v).1
  assign : ∀ e name h rest f, held.Perm (h.holdings ++ rest) → (w.assign e name h).2 = .error f →
    w.Abandoned rest (w.muted.drop h) (w.assign e name h).1
  bind : ∀ i params last args parent rest f, held.Perm (args.flatMap Handle.holdings ++ rest) →
    (∀ p ∈ parent, w.Alive (.scope p)) → (w.bind i params last args parent).2 = .error f →
    w.Abandoned rest (w.muted.dropAll args) (w.bind i params last args parent).1

/-- Operations that fail are atomic at every moment at which none is under way. -/
theorem failures_atomic (hm : Moment.Reachable ⟨w, held, none⟩) : w.Atomic held where
  write _ _ _ _ hf := edit_of_error hf
  push _ _ _ hf := edit_of_error hf
  allocate _ _ _ _ hp hf := abandoned_allocate (hm.step (.permute hp)) hf
  list _ _ _ _ hp hf := abandoned_list (hm.step (.permute hp)) hf
  set _ _ _ _ hp hf := abandoned_set (hm.step (.permute hp)) hf
  assign _ _ _ _ _ hp hf := abandoned_assign (hm.step (.permute hp)) hf
  bind _ _ _ _ _ _ _ hp hparent hf := abandoned_bind (hm.step (.permute hp)) hparent hf

end World

/-- A pair on the second heap is in a register, and one on the first heap in two. -/
def Session.mixed : Session :=
  let ops : List (HeapId × Op) :=
    [(2, .allocate (.pair .null .null) false (some "a")),
      (1, .allocate (.pair .null .null) false (some "b")), (1, .clone "b" (some "c"))]
  ops.foldl (fun s p => (s.performOp p.1 p.2).1) (.new [.own {}, .own {}])

/-- On the first heap a list fails at the item of the second heap when it has a pair already,
and a call at the list for its rest parameter when it has bound the other. -/
theorem World.failures_atomic_mixed :
    let w := Session.mixed.world
    let items := [Session.mixed.handle "a", Session.mixed.handle "b"]
    let args := [Session.mixed.handle "b", Session.mixed.handle "a"]
    let rest := (Session.mixed.handle "c").holdings
    ((w.list 1 items).2 = .error (.foreign .inNewCell) ∧ (w.list 1 items).1.liveCells = 1 ∧
        w.Abandoned rest (w.muted.dropAll items) (w.list 1 items).1) ∧
      ((w.bind 1 ["x"] (some "y") args none).1.liveCells = 1 ∧
        w.Abandoned rest (w.muted.dropAll args) (w.bind 1 ["x"] (some "y") args none).1) ∧
      (w.write (Session.mixed.handle "b") .first (Session.mixed.handle "a")).1 = w := by
  have hs : Session.mixed.Reachable := .op (.op (.op (.new _ _) 2 _) 1 _) 1 _
  have howned : Session.mixed.holdings =
      [Session.mixed.handle "a", Session.mixed.handle "b"].flatMap Handle.holdings ++
        (Session.mixed.handle "c").holdings := by
    cbv
  have hreversed : Session.mixed.holdings.Perm
      ([Session.mixed.handle "b", Session.mixed.handle "a"].flatMap Handle.holdings ++
        (Session.mixed.handle "c").holdings) := by
    rw [howned]
    exact (holdings_reverse_perm [_, _]).symm.append_right _
  have hlist : (Session.mixed.world.list 1
      [Session.mixed.handle "a", Session.mixed.handle "b"]).2 = .error (.foreign .inNewCell) := by
    cbv
  have hbind : (Session.mixed.world.bind 1 ["x"] (some "y")
      [Session.mixed.handle "b", Session.mixed.handle "a"] none).2 =
        .error (.foreign .inNewCell) := by
    cbv
  have hwrite : (Session.mixed.world.write (Session.mixed.handle "b") .first
      (Session.mixed.handle "a")).2 = .error (.foreign .asTarget) := by
    cbv
  have hatomic := failures_atomic hs.moment
  refine ⟨⟨hlist, by cbv, ?_⟩, ⟨by cbv, ?_⟩, hatomic.write _ _ _ _ hwrite⟩
  · exact hatomic.list _ _ _ _ (.of_eq howned) hlist
  · exact hatomic.bind _ _ _ _ _ _ _ hreversed (fun _ hp => by cases hp) hbind

end HybridHeap
