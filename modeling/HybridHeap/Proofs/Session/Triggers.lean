import Mathlib.Data.List.Forall2
import HybridHeap.Proofs.Session.Muted

/-!
The trigger of drops is redundant where allocations check the threshold. Two runs of a
script, with the trigger on and off, give the same answers, statistics, listings and
events; only the reported tuning differs. Both are compared with the run of a session
whose heaps are muted. What the two runs must share is the order in which a destroyed
environment drops its bindings: the order of the events is that of the drops.
-/

namespace HybridHeap

/-- What is reported after a command, up to a reported tuning. -/
structure Step.Alike (a b : Step) : Prop where
  answer : a.answer.Alike b.answer
  stats : a.stats = b.stats
  events : a.events = b.events
  listing : a.listing = b.listing

/-- Reports that only differ in reported tunings. -/
structure Report.Alike (a b : Report) : Prop where
  steps : List.Forall₂ Step.Alike a.steps b.steps
  listing : a.listing = b.listing
  dropped : a.dropped = b.dropped
  collected : a.collected = b.collected

theorem Step.Alike.symm {a b : Step} (h : a.Alike b) : b.Alike a :=
  ⟨h.answer.symm, h.stats.symm, h.events.symm, h.listing.symm⟩

theorem Step.Alike.trans {a b c : Step} (h : a.Alike b) (h' : b.Alike c) : a.Alike c :=
  ⟨h.answer.trans h'.answer, h.stats.trans h'.stats, h.events.trans h'.events,
    h.listing.trans h'.listing⟩

namespace Session

variable {s s' : Session}

theorem Mutes.listing (hm : s.Mutes s') : s'.listing = s.listing := by
  rw [Session.listing, Session.listing, hm.heaps, hm.objects, hm.roots]

theorem Mutes.step (hm : s.Mutes s') (listings : Bool) (command : Command) :
    (s.step listings command).1.Mutes (s'.step listings command).1 ∧
      (s.step listings command).2.Alike (s'.step listings command).2 := by
  have hforget : { s.world with events := [] }.Mutes { s'.world with events := [] } := by
    obtain ⟨rfl, hg⟩ := hm
    exact ⟨rfl, hg⟩
  have hdone := (hm.withWorld hforget).perform command
  have hevents := congrArg World.events hdone.sessions.world.world
  refine ⟨hdone.sessions, hdone.answers, hdone.sessions.stats.symm, ?_, ?_⟩
  · exact congrArg List.reverse hevents.symm
  · simp only [Session.step]
    split
    · exact congrArg some hdone.sessions.listing.symm
    · rfl

/-- A whole run goes the same way, step by step. -/
theorem Mutes.steps (hm : s.Mutes s') (listings : Bool) {done done' : List Step}
    (hd : List.Forall₂ Step.Alike done done') (commands : List Command) :
    (s.steps listings done commands).1.Mutes (s'.steps listings done' commands).1 ∧
      List.Forall₂ Step.Alike (s.steps listings done commands).2
        (s'.steps listings done' commands).2 := by
  induction commands generalizing s s' done done' with
  | nil => exact ⟨hm, List.forall₂_reverse_iff.mpr hd⟩
  | cons command commands ih =>
      obtain ⟨hm', halike⟩ := hm.step listings command
      exact ih hm' (.cons halike hd)

theorem Mutes.dropEverything (hm : s.Mutes s') : s.dropEverything.Mutes s'.dropEverything := by
  have hestate : s'.estate = s.estate := by
    rw [Session.estate, Session.estate, hm.held, hm.registers, hm.scopes]
  have hworld : s.dropEverything.world.Mutes s'.dropEverything.world := by
    rw [dropEverything_world, dropEverything_world, hestate]
    exact hm.world.settle _
  refine ⟨?_, hworld.guarded⟩
  rw [Session.muted, ← hworld.world, Session.dropEverything, Session.dropEverything, hm.heaps]

theorem Mutes.collectEverything (hm : s.Mutes s') :
    s.collectEverything.Mutes s'.collectEverything := by
  have hcollected : ∀ (is : List HeapId) {w w' : World}, w.Mutes w' →
      (is.foldl World.collectNow w).Mutes (is.foldl World.collectNow w') := by
    intro is
    induction is with
    | nil => exact id
    | cons i is ih => exact fun hm => ih (hm.collectNow i)
  rw [Session.collectEverything, Session.collectEverything, hm.heaps]
  exact hm.withWorld (hcollected s.heaps.toList hm.world)

/-- The report on commands performed from some session on. -/
def report (s : Session) (listings : Bool) (commands : List Command) : Report :=
  let (ran, steps) := s.steps listings [] commands
  let dropped := ran.dropEverything
  let collected := dropped.collectEverything
  { steps, listing := ran.listing, dropped := dropped.stats, collected := collected.stats }

theorem Mutes.report (hm : s.Mutes s') (listings : Bool) (commands : List Command) :
    (s.report listings commands).Alike (s'.report listings commands) := by
  obtain ⟨hran, hsteps⟩ := hm.steps listings .nil commands
  exact ⟨hsteps, hran.listing.symm, hran.dropEverything.stats.symm,
    hran.dropEverything.collectEverything.stats.symm⟩

/-- Enter one choice of a heap: the tunings so far and the heaps by their place. -/
def enlist (acc : Array Config × Array HeapId) (choice : HeapChoice) :
    Array Config × Array HeapId :=
  match choice with
  | .own config => (acc.1.push config, acc.2.push acc.1.size)
  | .shared => (acc.1, acc.2.push sharedHeap)

theorem new_eq {choices : List HeapChoice} (hc : choices.isEmpty = false)
    (dropOrder : EnvId → DropOrder) :
    Session.new choices dropOrder =
      { world := .new (choices.foldl enlist (#[{}], #[])).1 dropOrder,
        heaps := (choices.foldl enlist (#[{}], #[])).2,
        registers := ∅, held := ∅, scopes := ∅ } := by
  simp only [Session.new, hc]
  rfl

end Session

/-- The tuning with the given trigger of drops, and with that of allocations on. -/
def Config.triggered (on : Bool) (c : Config) : Config :=
  { c with collectOnAllocate := true, collectOnRelease := on }

def HeapChoice.triggered (on : Bool) : HeapChoice → HeapChoice
  | own config => own (config.triggered on)
  | shared => shared

/-- The script on heaps whose allocations check the threshold, and whose drops do or do not. -/
def Script.triggered (on : Bool) (script : Script) : Script :=
  { script with
    heaps := (if script.heaps.isEmpty then [.own {}] else script.heaps).map (·.triggered on) }

/-- Heaps that are entered alike up to the triggers of drops, where allocations check. -/
structure EnlistedAlike (a b : Array Config × Array HeapId) : Prop where
  configs : a.1.map Config.muted = b.1.map Config.muted
  heaps : a.2 = b.2
  allocating : ∀ config ∈ a.1, config.collectOnAllocate = true

theorem EnlistedAlike.enlist {a b : Array Config × Array HeapId} (h : EnlistedAlike a b)
    (on : Bool) (choice : HeapChoice) :
    EnlistedAlike (Session.enlist a (choice.triggered on))
      (Session.enlist b (choice.triggered false)) := by
  have hsize : a.1.size = b.1.size := by
    simpa using congrArg Array.size h.configs
  cases choice with
  | own config =>
      refine ⟨?_, ?_, ?_⟩
      · simp only [Session.enlist, HeapChoice.triggered, Array.map_push, h.configs]
        rfl
      · simp only [Session.enlist, HeapChoice.triggered, h.heaps, hsize]
      · intro c hc
        rcases Array.mem_push.mp hc with hc | rfl
        · exact h.allocating c hc
        · rfl
  | shared => exact ⟨h.configs, congrArg (·.push sharedHeap) h.heaps, h.allocating⟩

theorem EnlistedAlike.foldl {a b : Array Config × Array HeapId} (h : EnlistedAlike a b)
    (on : Bool) (choices : List HeapChoice) :
    EnlistedAlike ((choices.map (·.triggered on)).foldl Session.enlist a)
      ((choices.map (·.triggered false)).foldl Session.enlist b) := by
  induction choices generalizing a b with
  | nil => exact h
  | cons choice choices ih => exact ih (h.enlist on choice)

/-- Sessions on heaps with either trigger of drops have the same muted session. -/
theorem Session.mutes_new {choices : List HeapChoice} (hc : choices.isEmpty = false)
    (dropOrder : EnvId → DropOrder) (on : Bool) :
    (Session.new (choices.map (·.triggered on)) dropOrder).Mutes
      (Session.new (choices.map (·.triggered false)) dropOrder).muted := by
  have hempty : ∀ on, (choices.map (HeapChoice.triggered on)).isEmpty = false := by
    intro on
    rw [List.isEmpty_map, hc]
  have hstart : EnlistedAlike (#[{}], #[]) (#[{}], #[]) :=
    ⟨rfl, rfl, fun config hconfig => by simp_all⟩
  have halike := hstart.foldl on choices
  rw [new_eq (hempty on), new_eq (hempty false)]
  generalize (choices.map (·.triggered on)).foldl Session.enlist (#[{}], #[]) = a at halike ⊢
  generalize (choices.map (·.triggered false)).foldl Session.enlist (#[{}], #[]) = b at halike ⊢
  constructor
  · have hworld : (World.new a.1 dropOrder).muted = (World.new b.1 dropOrder).muted := by
      have hheaps : ∀ configs : Array Config,
          (configs.map Heap.new).map Heap.muted = (configs.map Config.muted).map Heap.new := by
        intro configs
        rw [Array.map_map, Array.map_map]
        rfl
      simp only [World.muted, World.new, hheaps, halike.configs]
    simp only [Session.muted, hworld, halike.heaps]
  · intro i h hi
    simp only [World.heap?, World.new, Array.getElem?_map, Option.map_eq_some_iff] at hi
    obtain ⟨config, hconfig, rfl⟩ := hi
    exact .inr ⟨halike.allocating config (Array.mem_of_getElem? hconfig), Nat.zero_le _⟩

theorem Report.Alike.symm {a b : Report} (h : a.Alike b) : b.Alike a :=
  ⟨h.steps.flip.imp fun _ _ => Step.Alike.symm, h.listing.symm, h.dropped.symm,
    h.collected.symm⟩

theorem Report.Alike.trans {a b c : Report} (h : a.Alike b) (h' : b.Alike c) : a.Alike c := by
  have hsteps : ∀ {as bs cs : List Step}, List.Forall₂ Step.Alike as bs →
      List.Forall₂ Step.Alike bs cs → List.Forall₂ Step.Alike as cs := by
    intro as bs cs hab
    induction hab generalizing cs with
    | nil => exact id
    | cons hhead _ ih =>
        intro hbc
        cases hbc with
        | cons hhead' htail' => exact .cons (hhead.trans hhead') (ih htail')
  exact ⟨hsteps h.steps h'.steps, h.listing.trans h'.listing, h.dropped.trans h'.dropped,
    h.collected.trans h'.collected⟩

/-- Where allocations check the threshold it does not matter whether drops check it too:
a script gets the same answers, statistics, events and listings, up to the tuning that is
reported. This is so whatever the order in which environments drop their bindings, if the
two runs have the same one. -/
theorem release_trigger_redundant (script : Script) (dropOrder : EnvId → DropOrder) :
    ((script.triggered true).run dropOrder).Alike ((script.triggered false).run dropOrder) := by
  let choices := if script.heaps.isEmpty then [.own {}] else script.heaps
  have hc : choices.isEmpty = false := by
    simp only [choices]
    split
    · rfl
    · rename_i hne
      simpa using hne
  have hrun : ∀ on, ((script.triggered on).run dropOrder).Alike
      ((Session.new (choices.map (·.triggered false)) dropOrder).muted.report script.listings
        script.commands) :=
    fun on => (Session.mutes_new hc dropOrder on).report script.listings script.commands
  exact (hrun true).trans (hrun false).symm

end HybridHeap
