import Mathlib.Data.List.Sort
import HybridHeap.Proofs.World.Passage

/-!
Root lists of worlds. The entries of a root list are those of the roots that are held or
bound, and stand in the order of their tickets; so two lists differ by what is owned, and
by nothing else.
-/

namespace HybridHeap

section NewestFirst

variable {α : Type} {key : α → Nat} {l l' : List α}

/-- What stands in the order of its keys, among other things in that order. -/
theorem sublist_of_newestFirst (hl : (l.map key).Pairwise (· > ·))
    (hl' : (l'.map key).Pairwise (· > ·)) (hsub : l ⊆ l') : l.Sublist l' := by
  have hpairs := List.pairwise_map.mp hl
  have hnodup : l.Nodup := hpairs.imp fun {a b} hab (he : a = b) =>
    absurd (congrArg key he) (Nat.ne_of_gt hab)
  have : Std.Antisymm fun a b : α => key a > key b :=
    ⟨fun a b hab hba => absurd hab (Nat.lt_asymm hba)⟩
  exact List.sublist_of_subperm_of_pairwise (List.subperm_of_subset hnodup hsub) hpairs
    (List.pairwise_map.mp hl')

/-- The order of the keys leaves no choice. -/
theorem eq_of_newestFirst (hl : (l.map key).Pairwise (· > ·))
    (hl' : (l'.map key).Pairwise (· > ·)) (hmem : ∀ a, a ∈ l ↔ a ∈ l') : l = l' :=
  (sublist_of_newestFirst hl hl' fun a => (hmem a).mp).antisymm
    (sublist_of_newestFirst hl' hl fun a => (hmem a).mpr)

end NewestFirst

namespace Heap

variable {h h' : Heap} {held held' : List Root} {r : Root}

theorem Listed.mem_roots_iff (hl : h.Listed held none) {p : Ticket × CellId} :
    p ∈ h.roots.toList ↔ ∃ r ∈ held, r.entry = p := by
  rw [hl.roots.mem_iff, listedRoots_none, List.mem_map]

/-- Once a root is owned no more, nothing on the list has its ticket. -/
theorem Listed.not_mem_tickets (hl : h.Listed held none) (hl' : h'.Listed held' none)
    (hsub : held' ⊆ held) (hr : r ∈ held) (hr' : r ∉ held') :
    r.ticket ∉ h'.roots.toList.map Prod.fst := by
  intro hm
  obtain ⟨p, hp, ht⟩ := List.mem_map.mp hm
  obtain ⟨s, hs, rfl⟩ := hl'.mem_roots_iff.mp hp
  have hsame : r = s := by
    have hnodup := hl.nodup_tickets
    rw [listedRoots_none] at hnodup
    exact List.inj_on_of_nodup_map hnodup hr (hsub hs) ht.symm
  exact hr' (hsame ▸ hs)

/-- A root that is newer than all that are owned otherwise is the first on the list. The
others are left in the order in which they were. -/
theorem Listed.newest {given : List Root} (hl : h.Listed (given ++ held) none)
    (hl' : h'.Listed (r :: held') none) (hsub : held' ⊆ held)
    (hnew : ∀ s ∈ held', s.ticket < r.ticket) :
    ∃ rest, h'.roots.toList = r.entry :: rest ∧ rest.Sublist h.roots.toList ∧
      (∀ p, p ∈ rest ↔ ∃ s ∈ held', s.entry = p) ∧ ∀ s ∈ given, s.ticket ∉ rest.map Prod.fst := by
  have hperm := hl'.roots
  have hsorted := hl'.newestFirst
  rw [listedRoots_none, List.map_cons] at hperm
  cases hroots : h'.roots.toList with
  | nil =>
      rw [hroots] at hperm
      exact absurd hperm.length_eq (by simp)
  | cons p rest =>
      rw [hroots] at hperm hsorted
      obtain ⟨hfirst, hrest⟩ := List.pairwise_cons.mp hsorted
      have hp : p = r.entry := by
        rcases List.mem_cons.mp (hperm.mem_iff.mpr List.mem_cons_self) with he | hm
        · exact he.symm
        · -- the first entry would be newer than the newest
          have hlt : r.ticket < p.1 := hfirst _ (List.mem_map_of_mem hm)
          rcases List.mem_cons.mp (hperm.mem_iff.mp List.mem_cons_self) with he | hm
          · exact he
          · obtain ⟨s, hs, rfl⟩ := List.mem_map.mp hm
            exact absurd (hnew s hs) (Nat.lt_asymm hlt)
      subst hp
      have hothers := (List.perm_cons _).mp hperm
      have hmem : ∀ p, p ∈ rest ↔ ∃ s ∈ held', s.entry = p := fun p => by
        rw [hothers.mem_iff, List.mem_map]
      refine ⟨rest, rfl, sublist_of_newestFirst hrest hl.newestFirst fun p hp => ?_, hmem,
        fun s hs hm => ?_⟩
      · obtain ⟨s, hs, he⟩ := (hmem p).mp hp
        exact hl.mem_roots_iff.mpr ⟨s, List.mem_append_right _ (hsub hs), he⟩
      · obtain ⟨p, hp, ht⟩ := List.mem_map.mp hm
        obtain ⟨s', hs', rfl⟩ := (hmem p).mp hp
        have hnodup := hl.nodup_tickets
        rw [listedRoots_none, List.map_append, List.nodup_append] at hnodup
        exact hnodup.2.2 _ (List.mem_map_of_mem hs) _ (List.mem_map_of_mem (hsub hs')) ht.symm

end Heap

namespace World

variable {w w' : World} {given held : List Holding} {i : HeapId} {h h' : Heap} {r : Root}

/-- Where no scope has changed, nothing is bound that was not bound before. -/
theorem bound_subset (hk : ∀ e, w.Keeps w' (.scope e)) : w'.bound ⊆ w.bound := by
  intro r hr
  obtain ⟨e, env', he', hr'⟩ := mem_bound.mp hr
  obtain ⟨env, he, -, hbindings⟩ := hk e env' he'
  refine mem_bound.mpr ⟨e, env, he, ?_⟩
  rwa [Environment.roots, hbindings]

theorem rootsIn_subset (given held : List Holding) (hbound : w'.bound ⊆ w.bound) (i : HeapId) :
    rootsIn i (heldRoots held ++ w'.bound) ⊆
      rootsIn i (heldRoots (given ++ held) ++ w.bound) := by
  intro r hr
  obtain ⟨hr, hi⟩ := List.mem_filter.mp hr
  refine List.mem_filter.mpr ⟨?_, hi⟩
  rw [heldRoots_append, List.append_assoc]
  refine List.mem_append_right _ ?_
  exact List.mem_append.mpr ((List.mem_append.mp hr).imp id fun hr => hbound hr)

namespace Balanced

theorem mem_roots_iff (hb : w.Balanced held none) (hi : w.heap? i = some h)
    {p : Ticket × CellId} :
    p ∈ h.roots.toList ↔ ∃ r ∈ heldRoots held ++ w.bound, r.cell.heap = i ∧ r.entry = p := by
  have hheap := hb.heap i h hi
  rw [writeIn_none] at hheap
  rw [hheap.listed.mem_roots_iff]
  simp only [rootsIn, List.mem_filter, decide_eq_true_eq, and_assoc]

/-- Every root is owned once. -/
theorem nodup_roots (hb : w.Balanced held none) : (heldRoots held ++ w.bound).Nodup := by
  rw [List.nodup_iff_count_eq_one]
  intro r hr
  obtain ⟨h, hi, -⟩ := hb.live_of_mem hr
  have hnodup := (hb.heap _ h hi).listed.nodup_tickets
  rw [writeIn_none, listedRoots_none] at hnodup
  have hcount := List.count_eq_one_of_mem (.of_map _ hnodup)
    (List.mem_filter.mpr ⟨hr, decide_eq_true rfl⟩)
  rwa [rootsIn, List.count_filter (by simp)] at hcount

/-- What has been given up has left the root list. -/
theorem unlisted (hb : w.Balanced (given ++ held) none) (hb' : w'.Balanced held none)
    (hbound : w'.bound ⊆ w.bound) (hr : .root r ∈ given)
    (hi' : w'.heap? r.cell.heap = some h') : r.ticket ∉ h'.roots.toList.map Prod.fst := by
  obtain ⟨h, hi, -⟩ := hb.live (List.mem_append_left _ hr)
  have hlisted := (hb.heap _ h hi).listed
  have hmem : r ∈ rootsIn r.cell.heap (heldRoots given) :=
    List.mem_filter.mpr ⟨mem_heldRoots.mpr hr, decide_eq_true rfl⟩
  have hgiven : r ∈ rootsIn r.cell.heap (heldRoots (given ++ held) ++ w.bound) := by
    rw [heldRoots_append, List.append_assoc, rootsIn_append]
    exact List.mem_append_left _ hmem
  refine hlisted.not_mem_tickets (hb'.heap _ h' hi').listed (rootsIn_subset given held hbound _)
    hgiven fun hr' => ?_
  -- it would be owned twice
  have hnodup := hlisted.nodup_tickets
  rw [writeIn_none, listedRoots_none, heldRoots_append, List.append_assoc, rootsIn_append,
    List.map_append, List.nodup_append] at hnodup
  have hrest : r ∈ rootsIn r.cell.heap (heldRoots held ++ w.bound) :=
    rootsIn_subset [] held hbound _ hr'
  exact hnodup.2.2 _ (List.mem_map_of_mem hmem) _ (List.mem_map_of_mem hrest) rfl

/-- A root that is newer than what is given for it is the first on the list, and the roots of
what was given are gone from it. -/
theorem newest_listed {v : Value Handle} (hb : w.Balanced (v.holdings ++ held) none)
    (hi : w.heap? i = some h) (ho : ownsAll i v = true) (hb' : w'.Balanced (.root r :: held) none)
    (hkeeps : ∀ e, w.Keeps w' (.scope e)) (hhome : r.cell.heap = i)
    (hticket : h.nextTicket ≤ r.ticket) (hi' : w'.heap? i = some h') :
    ∃ rest, h'.roots.toList = r.entry :: rest ∧ rest.Sublist h.roots.toList ∧
      (∀ a ∈ v.anchors, a.ticket ∉ rest.map Prod.fst) ∧
      ∀ p ∈ h.roots.toList, p ∉ rest → p ∈ v.anchors.map Root.entry ∨
        ∃ (e : EnvId) (env : Environment), w.envs[e]? = some env ∧ ¬w'.Alive (.scope e) ∧
          p ∈ env.roots.map Root.entry := by
  have hlisted := (hb.heap_of_value hi ho).listed
  have hsub := rootsIn_subset [] held (bound_subset hkeeps) i
  subst hhome
  have hlisted' := (hb'.heap_of_root hi').listed
  obtain ⟨rest, hroots, hrest, hmem, hgiven⟩ := hlisted.newest hlisted' hsub fun s hs =>
    Nat.lt_of_lt_of_le (hlisted.tickets s.entry
      (hlisted.mem_roots_iff.mpr ⟨s, List.mem_append_right _ (hsub hs), rfl⟩)) hticket
  refine ⟨rest, hroots, hrest, hgiven, fun p hp hne => ?_⟩
  obtain ⟨s, hs, rfl⟩ := hlisted.mem_roots_iff.mp hp
  rcases List.mem_append.mp hs with hs | hs
  · exact .inl (List.mem_map_of_mem hs)
  · obtain ⟨hs, hsi⟩ := List.mem_filter.mp hs
    have hunowned : s ∉ heldRoots held ++ w'.bound := fun hm =>
      hne ((hmem s.entry).mpr ⟨s, List.mem_filter.mpr ⟨hm, hsi⟩, rfl⟩)
    rw [List.mem_append, not_or] at hunowned
    obtain ⟨e, env, he, hroot⟩ := mem_bound.mp ((List.mem_append.mp hs).resolve_left hunowned.1)
    refine .inr ⟨e, env, he, fun ⟨env', he'⟩ => hunowned.2 ?_, List.mem_map_of_mem hroot⟩
    -- a scope that is still there binds it
    obtain ⟨old, hold, -, hbindings⟩ := hkeeps e env' he'
    rw [he, Option.some.injEq] at hold
    subst hold
    exact mem_bound.mpr ⟨e, env', he', by rwa [Environment.roots, ← hbindings]⟩

end Balanced

end World

end HybridHeap
