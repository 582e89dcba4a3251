import HybridHeap.LinkedMap.View

/-!
The contents of maps as lists. A sound linked map is the list of its entries, and a
tree map is a bag of pairs with distinct keys: what an operation does to a map is
said by what it does to the list.
-/

namespace HybridHeap

section Lists

variable {κ α : Type}

theorem eq_of_mem_of_nodup {l : List (κ × α)} (hd : (l.map Prod.fst).Nodup) {k : κ}
    {a b : α} (ha : (k, a) ∈ l) (hb : (k, b) ∈ l) : a = b := by
  induction l with
  | nil => simp at ha
  | cons p l ih =>
      simp only [List.map_cons, List.nodup_cons] at hd
      rcases List.mem_cons.mp ha with rfl | ha'
      · rcases List.mem_cons.mp hb with h | hb'
        · exact (congrArg Prod.snd h).symm
        · exact absurd (List.mem_map_of_mem (f := Prod.fst) hb') hd.1
      · rcases List.mem_cons.mp hb with rfl | hb'
        · exact absurd (List.mem_map_of_mem (f := Prod.fst) ha') hd.1
        · exact ih hd.2 ha' hb'

variable [DecidableEq κ]

theorem filter_ne_of_not_mem {l : List (κ × α)} {k : κ} (h : k ∉ l.map Prod.fst) :
    (l.filter fun p => p.1 ≠ k) = l := by
  rw [List.filter_eq_self]
  rintro ⟨k', a⟩ hp
  have hk : k' ≠ k := fun he => h (he ▸ List.mem_map_of_mem (f := Prod.fst) hp)
  simpa using hk

/-- With distinct keys, leaving out one key leaves out one entry. -/
theorem filter_ne_middle {l₁ l₂ : List (κ × α)} {k : κ} {a : α}
    (hd : ((l₁ ++ (k, a) :: l₂).map Prod.fst).Nodup) :
    ((l₁ ++ (k, a) :: l₂).filter fun p => p.1 ≠ k) = l₁ ++ l₂ := by
  simp only [List.map_append, List.map_cons] at hd
  rw [List.perm_middle.nodup_iff, List.nodup_cons, List.mem_append, not_or] at hd
  rw [List.filter_append, List.filter_cons_of_neg (by simp), filter_ne_of_not_mem hd.1.1,
    filter_ne_of_not_mem hd.1.2]

theorem perm_cons_filter {l : List (κ × α)} (hd : (l.map Prod.fst).Nodup) {k : κ} {a : α}
    (h : (k, a) ∈ l) : l.Perm ((k, a) :: l.filter fun p => p.1 ≠ k) := by
  obtain ⟨l₁, l₂, rfl⟩ := List.append_of_mem h
  rw [filter_ne_middle hd]
  exact List.perm_middle

/-- An update of one key, where the key does not occur. -/
theorem map_update_of_not_mem {l : List (κ × α)} {k : κ} (h : k ∉ l.map Prod.fst) (f : α → α) :
    (l.map fun p => (p.1, if p.1 = k then f p.2 else p.2)) = l := by
  have hid : ∀ p ∈ l, (p.1, if p.1 = k then f p.2 else p.2) = id p := by
    intro p hp
    have hne : p.1 ≠ k := fun he => h (he ▸ List.mem_map_of_mem hp)
    rw [if_neg hne]
    rfl
  rw [List.map_congr_left hid, List.map_id]

/-- With distinct keys, an update of one key updates one entry. -/
theorem map_update_perm {l : List (κ × α)} (hd : (l.map Prod.fst).Nodup) {k : κ} {a : α}
    (h : (k, a) ∈ l) (f : α → α) :
    (l.map fun p => (p.1, if p.1 = k then f p.2 else p.2)).Perm
      ((k, f a) :: l.filter fun p => p.1 ≠ k) := by
  refine ((perm_cons_filter hd h).map _).trans (.of_eq ?_)
  rw [List.map_cons, if_pos rfl, map_update_of_not_mem]
  intro hm
  obtain ⟨p, hp, he⟩ := List.mem_map.mp hm
  exact absurd he (by simpa using (List.mem_filter.mp hp).2)

/-- Whether an entry counts depends on the entry alone. -/
theorem count_filterMap_cons {β : Type} [BEq β] (f : α → Option β) (a : α) (l : List α) (b : β) :
    ((a :: l).filterMap f).count b = (f a).toList.count b + (l.filterMap f).count b := by
  rw [List.filterMap_cons]
  cases f a with
  | none => simp
  | some c =>
      rw [Option.toList, List.count_cons, List.count_cons, List.count_nil]
      omega

end Lists

namespace LinkedMap

variable {κ α : Type} [Ord κ] [Std.TransOrd κ] [DecidableEq κ]

/-- The links of a sound map spell its list. -/
def Sound (m : LinkedMap κ α) : Prop :=
  m.Represents m.toList

theorem Represents.sound {m : LinkedMap κ α} {l : List (κ × α)} (h : m.Represents l) :
    m.Sound := by
  rw [Sound, h.toList_eq]
  exact h

theorem sound_empty : (empty : LinkedMap κ α).Sound :=
  represents_empty.sound

theorem Sound.length_eq {m : LinkedMap κ α} (h : m.Sound) : m.length = m.toList.length :=
  h.length

theorem Sound.find?_eq_some_iff {m : LinkedMap κ α} (h : m.Sound) {k : κ} {a : α} :
    m.find? k = some a ↔ (k, a) ∈ m.toList := by
  rw [h.find?_eq]
  constructor
  · intro hf
    obtain ⟨p, hp, rfl⟩ := Option.map_eq_some_iff.mp hf
    have hk : p.1 = k := by simpa using List.find?_some hp
    exact hk ▸ List.mem_of_find?_eq_some hp
  · intro hm
    cases hf : m.toList.find? fun p => p.1 = k with
    | none => simpa using List.find?_eq_none.mp hf _ hm
    | some p =>
        have hk : p.1 = k := by simpa using List.find?_some hf
        have hp : (k, p.2) ∈ m.toList := hk ▸ List.mem_of_find?_eq_some hf
        rw [Option.map_some, eq_of_mem_of_nodup h.nodup hp hm]

theorem Sound.contains_iff_mem {m : LinkedMap κ α} (h : m.Sound) (k : κ) :
    m.contains k = true ↔ ∃ a, (k, a) ∈ m.toList := by
  rw [Represents.contains_iff h, List.mem_map]
  constructor
  · rintro ⟨p, hp, rfl⟩
    exact ⟨p.2, hp⟩
  · rintro ⟨a, ha⟩
    exact ⟨(k, a), ha, rfl⟩

/-- Two sound maps whose lists hold the same entry under a key agree on that key. -/
theorem Sound.find?_congr {m m' : LinkedMap κ α} (h : m.Sound) (h' : m'.Sound) {k : κ}
    (hk : ∀ a, (k, a) ∈ m'.toList ↔ (k, a) ∈ m.toList) : m'.find? k = m.find? k := by
  apply Option.ext
  intro a
  rw [h'.find?_eq_some_iff, h.find?_eq_some_iff, hk]

theorem Sound.find?_eq_none_iff {m : LinkedMap κ α} (h : m.Sound) {k : κ} :
    m.find? k = none ↔ k ∉ m.toList.map Prod.fst := by
  rw [Option.eq_none_iff_forall_ne_some, List.mem_map]
  constructor
  · rintro hn ⟨p, hp, rfl⟩
    exact hn p.2 (h.find?_eq_some_iff.mpr hp)
  · intro hn a ha
    exact hn ⟨(k, a), h.find?_eq_some_iff.mp ha, rfl⟩

theorem Sound.find?_of_filter {m m' : LinkedMap κ α} (h : m.Sound) (h' : m'.Sound)
    (keep : κ → Bool) (hl : m'.toList = m.toList.filter fun p => keep p.1) (k : κ) :
    m'.find? k = if keep k then m.find? k else none := by
  cases hk : keep k with
  | true =>
      rw [if_pos rfl]
      exact h.find?_congr h' fun a => by simp [hl, hk]
  | false =>
      rw [if_neg (by simp), h'.find?_eq_none_iff, hl, List.mem_map]
      rintro ⟨p, hp, rfl⟩
      simp [hk] at hp

theorem Sound.find?_of_cons {m m' : LinkedMap κ α} (h : m.Sound) (h' : m'.Sound) {k : κ} {a : α}
    (hl : m'.toList = (k, a) :: m.toList) (j : κ) :
    m'.find? j = if j = k then some a else m.find? j := by
  by_cases hj : j = k
  · rw [if_pos hj, h'.find?_eq_some_iff, hl, hj]
    exact List.mem_cons_self
  · rw [if_neg hj]
    exact h.find?_congr h' fun b => by simp [hl, hj]

variable [Std.LawfulEqOrd κ]

/-- The links add nothing to the list. -/
theorem Sound.ext {m m' : LinkedMap κ α} (h : m.Sound) (h' : m'.Sound)
    (hl : m.toList = m'.toList) : m = m' := by
  have hn : m.newest = m'.newest := by rw [h.newest, h'.newest, hl]
  have hlen : m.length = m'.length := by rw [h.length_eq, h'.length_eq, hl]
  have he : m.entries = m'.entries := by
    apply Std.ExtTreeMap.ext_getElem?
    intro k
    rw [h.entries, h'.entries, hl]
  cases m
  cases m'
  simp_all

theorem Sound.pushFront {m : LinkedMap κ α} (h : m.Sound) {k : κ}
    (hk : k ∉ m.toList.map Prod.fst) (a : α) :
    ∃ m', m.pushFront k a = .ok m' ∧ m'.Sound ∧ m'.toList = (k, a) :: m.toList := by
  obtain ⟨m', hp, hr⟩ := Represents.pushFront h hk a
  exact ⟨m', hp, hr.sound, hr.toList_eq⟩

theorem Sound.remove {m : LinkedMap κ α} (h : m.Sound) {k : κ} {a : α}
    (hk : (k, a) ∈ m.toList) :
    ∃ m', m.remove k = .ok m' ∧ m'.Sound ∧ m'.toList = m.toList.filter fun p => p.1 ≠ k := by
  obtain ⟨l₁, l₂, hl⟩ := List.append_of_mem hk
  have hr : m.Represents (l₁ ++ (k, a) :: l₂) := hl ▸ h
  obtain ⟨m', hm, hr'⟩ := hr.remove
  refine ⟨m', hm, hr'.sound, ?_⟩
  rw [hr'.toList_eq, hl, filter_ne_middle hr.nodup]

theorem Sound.modify {m : LinkedMap κ α} (h : m.Sound) (k : κ) (f : α → α) :
    (m.modify k f).Sound :=
  (Represents.modify h k f).sound

theorem Sound.toList_modify {m : LinkedMap κ α} (h : m.Sound) (k : κ) (f : α → α) :
    (m.modify k f).toList = m.toList.map fun p => (p.1, if p.1 = k then f p.2 else p.2) :=
  (Represents.modify h k f).toList_eq

theorem Sound.mapItems {m : LinkedMap κ α} (h : m.Sound) (f : α → α) : (m.mapItems f).Sound :=
  (Represents.mapItems h f).sound

theorem Sound.toList_mapItems {m : LinkedMap κ α} (h : m.Sound) (f : α → α) :
    (m.mapItems f).toList = m.toList.map fun p => (p.1, f p.2) :=
  (Represents.mapItems h f).toList_eq

@[simp] theorem find?_modify (m : LinkedMap κ α) (k j : κ) (f : α → α) :
    (m.modify k f).find? j = if j = k then (m.find? j).map f else m.find? j := by
  simp only [find?, LinkedMap.modify, Std.ExtTreeMap.getElem?_modify, Std.compare_eq_iff_eq]
  by_cases hj : k = j
  · subst hj
    simp [Function.comp_def]
  · simp [hj, Ne.symm hj]

end LinkedMap

section TreeMaps

variable {κ β γ : Type} [Ord κ] [Std.TransOrd κ]

theorem values_eq_map_snd (t : Std.ExtTreeMap κ β) : t.values = t.toList.map Prod.snd := by
  obtain ⟨⟨q⟩⟩ := t
  induction q using Quotient.ind with
  | _ a =>
      show a.inner.values = (Std.DTreeMap.Internal.Impl.Const.toList a.inner).map Prod.snd
      rw [Std.DTreeMap.Internal.Impl.values_eq_map_snd,
        Std.DTreeMap.Internal.Impl.Const.toList_eq_toListModel_map, List.map_map]
      rfl

variable [Std.LawfulEqOrd κ]

theorem nodup_toList (t : Std.ExtTreeMap κ β) : t.toList.Nodup := by
  refine t.distinct_keys_toList.imp fun {a b} hne he => hne ?_
  rw [he, Std.compare_eq_iff_eq]

theorem not_mem_toList_erase (t : Std.ExtTreeMap κ β) (k : κ) (b : β) :
    (k, b) ∉ (t.erase k).toList := by
  rw [Std.ExtTreeMap.mem_toList_iff_getElem?_eq_some]
  simp

/-- Inserting puts one pair into the bag and takes what the key had before out of it. -/
theorem toList_insert_perm (t : Std.ExtTreeMap κ β) (k : κ) (b : β) :
    (t.insert k b).toList.Perm ((k, b) :: (t.erase k).toList) := by
  rw [List.perm_ext_iff_of_nodup (nodup_toList _)
    (List.nodup_cons.mpr ⟨not_mem_toList_erase t k b, nodup_toList _⟩)]
  rintro ⟨j, c⟩
  simp only [List.mem_cons, Std.ExtTreeMap.mem_toList_iff_getElem?_eq_some, Prod.mk.injEq,
    Std.ExtTreeMap.getElem?_insert, Std.ExtTreeMap.getElem?_erase, Std.compare_eq_iff_eq]
  by_cases hj : k = j
  · simp [hj, eq_comm]
  · simp [hj, Ne.symm hj]

theorem toList_perm_of_getElem? {t : Std.ExtTreeMap κ β} {k : κ} {b : β} (h : t[k]? = some b) :
    t.toList.Perm ((k, b) :: (t.erase k).toList) := by
  have hi : t.insert k b = t := by
    apply Std.ExtTreeMap.ext_getElem?
    intro j
    rw [Std.ExtTreeMap.getElem?_insert]
    split
    · rename_i hj
      rw [← Std.compare_eq_iff_eq.mp hj, h]
    · rfl
  have hp := toList_insert_perm t k b
  rwa [hi] at hp

theorem values_insert_perm (t : Std.ExtTreeMap κ β) (k : κ) (b : β) :
    (t.insert k b).values.Perm (b :: (t.erase k).values) := by
  rw [values_eq_map_snd, values_eq_map_snd]
  exact (toList_insert_perm t k b).map Prod.snd

theorem values_perm_of_getElem? {t : Std.ExtTreeMap κ β} {k : κ} {b : β} (h : t[k]? = some b) :
    t.values.Perm (b :: (t.erase k).values) := by
  rw [values_eq_map_snd, values_eq_map_snd]
  exact (toList_perm_of_getElem? h).map Prod.snd

theorem mem_values_iff {t : Std.ExtTreeMap κ β} {b : β} :
    b ∈ t.values ↔ ∃ k : κ, t[k]? = some b := by
  rw [values_eq_map_snd, List.mem_map]
  constructor
  · rintro ⟨⟨k, c⟩, hm, rfl⟩
    exact ⟨k, Std.ExtTreeMap.mem_toList_iff_getElem?_eq_some.mp hm⟩
  · rintro ⟨k, hk⟩
    exact ⟨(k, b), Std.ExtTreeMap.mem_toList_iff_getElem?_eq_some.mpr hk, rfl⟩

theorem erase_eq_self {t : Std.ExtTreeMap κ β} {k : κ} (h : t[k]? = none) : t.erase k = t := by
  apply Std.ExtTreeMap.ext_getElem?
  intro j
  rw [Std.ExtTreeMap.getElem?_erase]
  split
  · rename_i hj
    rw [← Std.compare_eq_iff_eq.mp hj, h]
  · rfl

/-- A key has what was inserted for it, or what it had before. -/
theorem eq_or_of_getElem?_insert {t : Std.ExtTreeMap κ β} {k j : κ} {b c : β}
    (h : (t.insert k b)[j]? = some c) : (k = j ∧ b = c) ∨ t[j]? = some c := by
  rw [Std.ExtTreeMap.getElem?_insert] at h
  split at h
  · rename_i hj
    exact .inl ⟨Std.compare_eq_iff_eq.mp hj, Option.some.inj h⟩
  · exact .inr h

theorem modify_eq_insert {t : Std.ExtTreeMap κ β} {k : κ} {b : β} (h : t[k]? = some b)
    (f : β → β) : t.modify k f = t.insert k (f b) := by
  apply Std.ExtTreeMap.ext_getElem?
  intro j
  rw [Std.ExtTreeMap.getElem?_modify, Std.ExtTreeMap.getElem?_insert]
  split
  · rw [h]
    rfl
  · rfl

theorem map_insert (t : Std.ExtTreeMap κ β) (k : κ) (b : β) (f : β → γ) :
    (t.insert k b).map (fun _ c => f c) = (t.map fun _ c => f c).insert k (f b) := by
  apply Std.ExtTreeMap.ext_getElem?
  intro j
  rw [Std.ExtTreeMap.getElem?_map, Std.ExtTreeMap.getElem?_insert,
    Std.ExtTreeMap.getElem?_insert, Std.ExtTreeMap.getElem?_map]
  split <;> rfl

theorem map_erase (t : Std.ExtTreeMap κ β) (k : κ) (f : β → γ) :
    (t.erase k).map (fun _ c => f c) = (t.map fun _ c => f c).erase k := by
  apply Std.ExtTreeMap.ext_getElem?
  intro j
  rw [Std.ExtTreeMap.getElem?_map, Std.ExtTreeMap.getElem?_erase,
    Std.ExtTreeMap.getElem?_erase, Std.ExtTreeMap.getElem?_map]
  split <;> rfl

end TreeMaps

end HybridHeap
