import HybridHeap.Proofs.Heap.Census

/-!
Marking marks what the roots reach. `Heap.Reached` is reachability from the root list
through slots. The invariant of the scan is `Heap.Scanning`: whatever is marked or
waits on the stack is reached, and a reference that leads out of the marked cells
leads onto the stack; so nothing is left out once the stack is empty.
-/

namespace HybridHeap

namespace Heap

/-- The cells on the root list, from the newest entry to the oldest. -/
def rootTargets (h : Heap) : List CellId :=
  h.roots.toList.map Prod.snd

/-- The cells that some given cells reach through slots, the given ones included. -/
inductive ReachedFrom (h : Heap) (sources : List CellId) : CellId → Prop
  | source {c : CellId} : c ∈ sources → ReachedFrom h sources c
  | slot {c d : CellId} {cell : Cell} : ReachedFrom h sources c → h.find? c = some cell →
      d ∈ cell.value.targets → ReachedFrom h sources d

/-- The cells that the root list reaches through slots. -/
def Reached (h : Heap) (c : CellId) : Prop :=
  h.ReachedFrom h.rootTargets c

/-- Reachability is a matter of values alone. -/
theorem ReachedFrom.congr {h h' : Heap} {sources : List CellId} {c : CellId}
    (hr : h.ReachedFrom sources c)
    (hv : ∀ d cell, h.find? d = some cell →
      ∃ cell', h'.find? d = some cell' ∧ cell'.value = cell.value) :
    h'.ReachedFrom sources c := by
  induction hr with
  | source hs => exact .source hs
  | slot _ hf hd ih =>
      obtain ⟨cell', hf', he⟩ := hv _ _ hf
      exact .slot ih hf' (he ▸ hd)

/-- No reference dangles, neither on the root list nor in a slot. -/
structure Closed (h : Heap) : Prop where
  sound : h.objects.Sound
  roots : ∀ c ∈ h.rootTargets, h.Live c
  slots : ∀ c cell, h.find? c = some cell → ∀ d ∈ cell.value.targets, h.Live d

theorem Closed.live_of_reached {h : Heap} (hc : h.Closed) {c : CellId} (hr : h.Reached c) :
    h.Live c := by
  induction hr with
  | source hs => exact hc.roots _ hs
  | slot _ hf hd => exact hc.slots _ _ hf _ hd

def isMarked (h : Heap) (c : CellId) : Bool :=
  (h.find? c).any Cell.marked

end Heap

/-- A cell without its mark. -/
def cleared (p : CellId × Cell) : CellId × Cell :=
  (p.1, { p.2 with marked := false })

namespace Heap

/-- No live cell carries a mark. -/
def Unmarked (h : Heap) : Prop :=
  ∀ p ∈ h.cells, p.2.marked = false

theorem Unmarked.map_cells {h : Heap} (hu : h.Unmarked) : h.cells.map cleared = h.cells := by
  have hid : ∀ p ∈ h.cells, cleared p = id p := by
    intro p hp
    have := hu p hp
    simp only [cleared, id_eq]
    rw [← this]
  rw [List.map_congr_left hid, List.map_id]

theorem isMarked_of_mem {h : Heap} (hs : h.objects.Sound) {p : CellId × Cell}
    (hp : p ∈ h.cells) : h.isMarked p.1 = p.2.marked := by
  have hf : h.find? p.1 = some p.2 := hs.find?_eq_some_iff.mpr hp
  rw [isMarked, hf, Option.any_some]

/-- `h` is `h₀` with some marks set or cleared. -/
structure Remarked (h₀ h : Heap) : Prop where
  sound₀ : h₀.objects.Sound
  sound : h.objects.Sound
  rest : h = { h₀ with objects := h.objects }
  cells : h.cells.map cleared = h₀.cells.map cleared

namespace Remarked

variable {h₀ h : Heap} {c : CellId} {cell : Cell}

theorem refl (hs : h.objects.Sound) : Remarked h h :=
  ⟨hs, hs, rfl, rfl⟩

theorem find?_of_find? (hr : Remarked h₀ h) (hf : h.find? c = some cell) :
    ∃ old, h₀.find? c = some old ∧ old.value = cell.value := by
  have hm : (c, cell) ∈ h.cells := hr.sound.find?_eq_some_iff.mp hf
  have hu := List.mem_map_of_mem (f := cleared) hm
  rw [hr.cells] at hu
  obtain ⟨⟨d, old⟩, hp, he⟩ := List.mem_map.mp hu
  simp only [cleared, Prod.mk.injEq, Cell.mk.injEq] at he
  obtain ⟨rfl, -, -, hv⟩ := he
  exact ⟨old, hr.sound₀.find?_eq_some_iff.mpr hp, hv⟩

theorem live (hr : Remarked h₀ h) (hl : h₀.Live c) : h.Live c := by
  obtain ⟨cell, hf⟩ := hl
  have hm : (c, cell) ∈ h₀.cells := hr.sound₀.find?_eq_some_iff.mp hf
  have hu := List.mem_map_of_mem (f := cleared) hm
  rw [← hr.cells] at hu
  obtain ⟨⟨d, new⟩, hp, he⟩ := List.mem_map.mp hu
  simp only [cleared, Prod.mk.injEq] at he
  exact ⟨new, hr.sound.find?_eq_some_iff.mpr (he.1 ▸ hp)⟩

theorem setMark (hr : Remarked h₀ h) (c : CellId) : Remarked h₀ (h.setMark c) where
  sound₀ := hr.sound₀
  sound := hr.sound.modify c fun cell => { cell with marked := true }
  rest := by
    rw [hr.rest]
    rfl
  cells := by
    rw [Heap.setMark, cells_modifyCell hr.sound, List.map_map, ← hr.cells]
    apply List.map_congr_left
    intro p _
    simp only [Function.comp_apply, cleared]
    split <;> rfl

end Remarked

theorem isMarked_setMark {h : Heap} {c : CellId} (hl : h.Live c) (d : CellId) :
    (h.setMark c).isMarked d = (decide (d = c) || h.isMarked d) := by
  obtain ⟨cell, hf⟩ := hl
  rw [isMarked, setMark, find?_modifyCell]
  by_cases hd : d = c
  · simp [hd, hf]
  · simp [hd, isMarked]

/-- The state of a scan of `h₀`: the heap with the marks set so far, and the stack. -/
structure Scanning (h₀ h : Heap) (stack : List CellId) : Prop where
  remarked : Remarked h₀ h
  reached_of_isMarked : ∀ c, h.isMarked c = true → h₀.Reached c
  reached_of_mem : ∀ c ∈ stack, h₀.Reached c
  roots : ∀ c ∈ h₀.rootTargets, h.isMarked c = true ∨ c ∈ stack
  targets : ∀ c cell, h₀.find? c = some cell → h.isMarked c = true →
    ∀ d ∈ cell.value.targets, h.isMarked d = true ∨ d ∈ stack

namespace Scanning

variable {h₀ h : Heap} {c : CellId} {cell : Cell} {stack : List CellId}

/-- A cell that is marked already comes off the stack. -/
theorem skip (hi : Scanning h₀ h (c :: stack)) (hm : h.isMarked c = true) :
    Scanning h₀ h stack where
  remarked := hi.remarked
  reached_of_isMarked := hi.reached_of_isMarked
  reached_of_mem d hd := hi.reached_of_mem d (List.mem_cons_of_mem c hd)
  roots d hd := by
    rcases hi.roots d hd with h' | h'
    · exact .inl h'
    · rcases List.mem_cons.mp h' with rfl | h'
      · exact .inl hm
      · exact .inr h'
  targets a cell ha hma d hd := by
    rcases hi.targets a cell ha hma d hd with h' | h'
    · exact .inl h'
    · rcases List.mem_cons.mp h' with rfl | h'
      · exact .inl hm
      · exact .inr h'

/-- A cell that has no mark yet is marked, and its children go onto the stack. -/
theorem visit (hi : Scanning h₀ h (c :: stack)) (hf : h.find? c = some cell)
    {stack' : List CellId}
    (hs : ∀ d, d ∈ stack' ↔ d ∈ cell.value.targets ∨ d ∈ stack) :
    Scanning h₀ (h.setMark c) stack' := by
  obtain ⟨old, hold, hvalue⟩ := hi.remarked.find?_of_find? hf
  have hmark : ∀ d, (h.setMark c).isMarked d = true ↔ d = c ∨ h.isMarked d = true := by
    intro d
    rw [isMarked_setMark ⟨cell, hf⟩]
    simp
  have hreached : h₀.Reached c := hi.reached_of_mem c List.mem_cons_self
  refine ⟨hi.remarked.setMark c, ?_, ?_, ?_, ?_⟩
  · intro d hd
    rcases (hmark d).mp hd with rfl | hd
    · exact hreached
    · exact hi.reached_of_isMarked d hd
  · intro d hd
    rcases (hs d).mp hd with hd | hd
    · exact .slot hreached hold (hvalue ▸ hd)
    · exact hi.reached_of_mem d (List.mem_cons_of_mem c hd)
  · intro d hd
    rw [hmark, hs]
    rcases hi.roots d hd with h' | h'
    · exact .inl (.inr h')
    · rcases List.mem_cons.mp h' with rfl | h'
      · exact .inl (.inl rfl)
      · exact .inr (.inr h')
  · intro a cell' ha hma d hd
    rw [hmark, hs]
    rcases (hmark a).mp hma with rfl | hma
    · rw [hold, Option.some.injEq] at ha
      subst ha
      exact .inr (.inl (hvalue ▸ hd))
    · rcases hi.targets a cell' ha hma d hd with h' | h'
      · exact .inl (.inr h')
      · rcases List.mem_cons.mp h' with rfl | h'
        · exact .inl (.inl rfl)
        · exact .inr (.inr h')

/-- With an empty stack the marked cells are those that the roots reach. -/
theorem isMarked_iff (hi : Scanning h₀ h []) (c : CellId) :
    h.isMarked c = true ↔ h₀.Reached c := by
  constructor
  · exact hi.reached_of_isMarked c
  · intro hr
    induction hr with
    | source hs => simpa using hi.roots _ hs
    | slot _ hf hd ih => simpa using hi.targets _ _ hf ih _ hd

end Scanning

end Heap

theorem MarkStack.cells_pushAll (s : MarkStack) (cs : List CellId) :
    (s.pushAll cs).cells = cs.reverse ++ s.cells := by
  induction cs generalizing s with
  | nil => rfl
  | cons c cs ih =>
      rw [pushAll, List.foldl_cons, ← pushAll, ih]
      simp [push]

/-- The size that a stack keeps is the number of its cells. -/
def MarkStack.Sized (s : MarkStack) : Prop :=
  s.size = s.cells.length

theorem MarkStack.Sized.pushAll {s : MarkStack} (h : s.Sized) (cs : List CellId) :
    (s.pushAll cs).Sized := by
  induction cs generalizing s with
  | nil => exact h
  | cons c cs ih =>
      apply ih
      simp only [Sized, push, List.length_cons]
      rw [h]

theorem MarkStack.pop?_eq_some {s s' : MarkStack} {c : CellId} (h : s.pop? = some (c, s')) :
    s.cells = c :: s'.cells ∧ (s.Sized → s'.Sized) := by
  unfold pop? at h
  split at h
  · cases h
  · rename_i hs
    cases h
    refine ⟨hs, fun hz => ?_⟩
    simp only [Sized, hs, List.length_cons] at hz ⊢
    omega

namespace Heap

/-- A scan ends with an empty stack and keeps its invariant. -/
theorem scanning_scan {h₀ h : Heap} {s : MarkStack} (hc : h₀.Closed) (hz : s.Sized)
    (hi : Scanning h₀ h s.cells) :
    Scanning h₀ (h.scan s).1 [] ∧ (h.scan s).2.size = 0 := by
  fun_induction scan h s with
  | case1 h s hs =>
      have hnil : s.cells = [] := by
        unfold MarkStack.pop? at hs
        split at hs
        · assumption
        · cases hs
      rw [hnil] at hi
      exact ⟨hi, hz.trans (by rw [hnil]; rfl)⟩
  | case2 h s c s' hs hf ih =>
      obtain ⟨hcells, -⟩ := MarkStack.pop?_eq_some hs
      -- a cell on the stack is reached, and what is reached is alive
      have hreach : h₀.Reached c := hi.reached_of_mem c (hcells ▸ List.mem_cons_self)
      obtain ⟨cell, hcell⟩ := hi.remarked.live (hc.live_of_reached hreach)
      simp [hf] at hcell
  | case3 h s c s' hs cell hf hm ih =>
      obtain ⟨hcells, hsized⟩ := MarkStack.pop?_eq_some hs
      rw [hcells] at hi
      exact ih (hsized hz) (hi.skip (by rw [isMarked, hf, Option.any_some, hm]))
  | case4 h s c s' hs cell hf hm ih =>
      obtain ⟨hcells, hsized⟩ := MarkStack.pop?_eq_some hs
      rw [hcells] at hi
      refine ih ((hsized hz).pushAll _) (hi.visit hf fun d => ?_)
      rw [MarkStack.cells_pushAll]
      simp

/-- Marking a heap without marks and without queued references: nothing changes but
the marks, which the cells reached get, and no reference is left to be given up. -/
theorem mark_spec {h : Heap} (hc : h.Closed) (hu : h.Unmarked) (hd : h.deferred = []) :
    Remarked h h.mark.heap ∧ (∀ c, h.mark.heap.isMarked c = true ↔ h.Reached c) ∧
      h.mark.pending = [] := by
  have hempty : { h with deferred := [] } = h := by rw [← hd]
  have hstart : Scanning h h (MarkStack.pushAll {} h.rootTargets).cells := by
    have hno : ∀ c, h.isMarked c = true → False := by
      intro c hm
      rw [isMarked, Option.any_eq_true] at hm
      obtain ⟨cell, hf, hmark⟩ := hm
      have := hu _ (hc.sound.find?_eq_some_iff.mp hf)
      simp [hmark] at this
    rw [MarkStack.cells_pushAll, List.append_nil]
    refine ⟨.refl hc.sound, fun c hm => (hno c hm).elim, fun c hm => ?_, fun c hm => ?_,
      fun c _ _ hm => (hno c hm).elim⟩
    · exact .source (List.mem_reverse.mp hm)
    · exact .inr (List.mem_reverse.mpr hm)
  have hsized : (MarkStack.pushAll {} h.rootTargets).Sized :=
    MarkStack.Sized.pushAll (s := {}) rfl _
  obtain ⟨hend, hsize⟩ := scanning_scan hc hsized hstart
  have hheap : h.mark.heap = (h.scan (MarkStack.pushAll {} h.rootTargets)).1 := by
    simp only [mark, hd, hempty, scanQueued]
    exact if_pos hsize
  rw [hheap]
  exact ⟨hend.remarked, hend.isMarked_iff, hd⟩

end Heap

end HybridHeap
