import Mathlib.Data.List.Permutation
import HybridHeap.Proofs.Session.Accounts
import HybridHeap.Proofs.World.Openings

/-!
The collector starts clean every time: between operations, and wherever a collection starts
in the middle of one.
-/

namespace HybridHeap

/-- Nothing is under way: all heaps are at rest, and what is held unplaced is anchored. -/
structure Moment.Rested (m : Moment) : Prop where
  clean : ∀ i h, m.world.heap? i = some h → h.Clean
  anchored : m.Anchored

theorem Moment.Balanced.rested {m : Moment} (hb : m.Balanced) (hw : m.write = none) :
    m.Rested where
  clean i h hi := by
    have hheap := World.Balanced.heap hb i h hi
    rw [hw, writeIn_none] at hheap
    exact hheap.clean (hheap.deferred rfl)
  anchored := hb.anchored

namespace Session

/-- The handles in registers, in bindings and in the slots of values kept off the heaps. -/
theorem Reachable.anchors {s : Session} (hs : s.Reachable) :
    s.world.Anchors (s.handles ++ s.keptHandles) := by
  refine World.Balanced.anchors hs.moment.balanced ?_
  rw [listedRoots_none]
  exact s.owners_perm.symm

/-- Between the operations of a script, and whenever no write is under way in the middle of
one, all heaps are clean and all handles anchored. So they are when a collection starts: a step
that completes one has opened it on a heap that was ready, and leaves that heap clean. -/
theorem collector_starts_clean :
    (∀ m : Moment, m.Reachable → m.write = none → m.Rested) ∧
      (∀ s : Session, s.Reachable → Moment.Rested ⟨s.world, s.holdings, none⟩ ∧
        s.world.Anchors (s.handles ++ s.keptHandles)) ∧
      ∀ m m' : Moment, m.Reachable → m.Step m' → ∀ (i : HeapId) (h h' : Heap),
        m.world.heap? i = some h → m'.world.heap? i = some h' →
          h'.counters.collections ≠ h.counters.collections →
            ∃ before mid, m.Opens i before mid ∧ mid.Ready i before ∧
              h' = before.collect.heap ∧ h'.Clean := by
  refine ⟨fun m hm hw => hm.balanced.rested hw, fun s hs => ?_, ?_⟩
  · exact ⟨hs.moment.balanced.rested rfl, hs.anchors⟩
  · intro m m' hm hs i h h' hi hi' hc
    obtain ⟨before, mid, ho, rfl⟩ := hs.opens hi hi' hc
    obtain ⟨hready, hclean⟩ := ho.ready hm.balanced
    exact ⟨before, mid, ho, hready, rfl, hclean⟩

/-- A closure whose environment binds the only handle to a pair that refers to itself, and a
value that is kept off the heap. The cells exceed the threshold. -/
def entwined : Session :=
  let config : Config := { initialCapacity := 0, collectOnAllocate := false }
  let code := Code.lambda { params := ["x"], rest := none, body := .lambda [] none (.var "x") }
  let ops : List Op :=
    [.newScope "e" none,
      .allocate (.closure code "e") false (some "f"),
      .dropScope "e",
      .allocate (.pair .null .null) false (some "p"),
      .write "p" .first "p",
      .call "f" [.move "p"] (some "c"),
      .hold "k" (.vector [.fresh (.scalar (.integer 1)), .null, .fresh (.scalar (.integer 2))])]
  ops.foldl (fun s op => (s.performOp 1 op).1) (.new [.own config])

theorem entwined_reachable : entwined.Reachable :=
  .foldl (.new _ _) 1 _

/-- The handle to the closure. -/
def entwinedRoot : Root :=
  { cell := { heap := 1, number := 2 }, ticket := 2 }

/-- The handle that the environment of the closure binds. -/
def boundRoot : Root :=
  { cell := { heap := 1, number := 1 }, ticket := 1 }

/-- Null takes the place of the closure. -/
def overwritten : World :=
  entwined.world.setHeap 1
    (((entwined.world.heap? 1).getD default).swap entwinedRoot.cell .null)

/-- The value of the closure is being replaced. The closure's environment is gone already and
has let go of its parent, and the root that it bound is to be dropped. -/
def destroying : Moment :=
  { world := ((overwritten.doChore (.leave 1)).1.doChore (.leave 0)).1,
    held := .root boundRoot :: entwined.holdings.drop 1,
    write := some { root := entwinedRoot, anchors := [] } }

theorem heap?_eq_getD {w : World} {i : HeapId} (h : (w.heap? i).isSome = true) :
    w.heap? i = some ((w.heap? i).getD default) := by
  obtain ⟨k, hk⟩ := Option.isSome_iff_exists.mp h
  rw [hk, Option.getD_some]

theorem destroying_reachable : destroying.Reachable := by
  have hheld : entwined.holdings =
      .root entwinedRoot :: ((Value.null : Value Handle).holdings ++ entwined.holdings.drop 1) := by
    cbv
  have hi : entwined.world.heap? 1 = some ((entwined.world.heap? 1).getD default) :=
    heap?_eq_getD (by cbv)
  have hm := entwined_reachable.moment
  rw [hheld] at hm
  have hwrite := hm.step (.swap hi rfl)
  have henv : (((entwined.world.heap? 1).getD default).read entwinedRoot.cell).env? = some 1 := by
    cbv
  rw [henv] at hwrite
  have hestate : (overwritten.doChore (.leave 1)).2 = [.leave 0, .dropRoot boundRoot] := by
    cbv
  have hparent : ((overwritten.doChore (.leave 1)).1.doChore (.leave 0)).2 = [] := by
    cbv
  have hleft := hwrite.step (.chore (.leave 1))
  change Moment.Reachable ⟨_, (overwritten.doChore (.leave 1)).2.map Chore.holding ++ _, _⟩ at hleft
  rw [hestate] at hleft
  have hdone := hleft.step (.chore (.leave 0))
  change Moment.Reachable ⟨_,
    ((overwritten.doChore (.leave 1)).1.doChore (.leave 0)).2.map Chore.holding ++ _, _⟩ at hdone
  rw [hparent] at hdone
  exact hdone

/-- The drop starts a collection in the middle of the write. -/
theorem collector_starts_clean_destroying :
    Moment.Rested ⟨entwined.world, entwined.holdings, none⟩ ∧ destroying.write.isSome = true ∧
      ∃ before mid, destroying.Opens 1 before mid ∧ mid.Ready 1 before ∧
        before.collect.heap.Clean := by
  obtain ⟨-, hsessions, hsteps⟩ := collector_starts_clean
  refine ⟨(hsessions entwined entwined_reachable).1, rfl, ?_⟩
  have hi : destroying.world.heap? 1 = some ((destroying.world.heap? 1).getD default) :=
    heap?_eq_getD (by cbv)
  have hi' := heap?_eq_getD (w := (destroying.world.doChore (.dropRoot boundRoot)).1) (i := 1)
    (by cbv)
  have hbefore : ((destroying.world.heap? 1).getD default).counters.collections = 0 := by
    cbv
  have hafter : (((destroying.world.doChore (.dropRoot boundRoot)).1.heap? 1).getD
      default).counters.collections = 1 := by
    cbv
  obtain ⟨before, mid, ho, hready, he, hclean⟩ := hsteps destroying _ destroying_reachable
    (.chore (.dropRoot boundRoot)) 1 _ _ hi hi' (by rw [hbefore, hafter]; decide)
  exact ⟨before, mid, ho, hready, he ▸ hclean⟩

end Session

end HybridHeap
