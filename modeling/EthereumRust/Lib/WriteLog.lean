import Mathlib.Data.Finmap

/-!
# Writes to a finite map

A list of writes, oldest first, is replayed by inserting one after the other. What is found
afterwards under a key is the last value written there. Their order does not matter exactly if
writes to one key agree (`forall_insertAll_perm_iff`).
-/

namespace WriteLog

open List Finmap

variable {K V : Type} [DecidableEq K]

def replay (m : Finmap fun _ : K => V) (writes : List (K × V)) : Finmap fun _ : K => V :=
  writes.foldl (fun m w => m.insert w.1 w.2) m

/-- The value of the last write to a key. -/
def last : List (K × V) → K → Option V
  | [], _ => none
  | w :: writes, key => (last writes key).or (if w.1 = key then some w.2 else none)

theorem lookup_replay (m : Finmap fun _ : K => V) (writes : List (K × V)) (key : K) :
    (replay m writes).lookup key = (last writes key).or (m.lookup key) := by
  induction writes generalizing m with
  | nil => rfl
  | cons w writes ih =>
    have hstep : replay m (w :: writes) = replay (m.insert w.1 w.2) writes := rfl
    rw [hstep, ih, last, Option.or_assoc]
    by_cases hkey : w.1 = key
    · subst hkey
      rw [if_pos rfl, lookup_insert, Option.some_or]
    · rw [if_neg hkey, lookup_insert_of_ne _ (Ne.symm hkey), Option.none_or]

theorem replay_eq_self_iff (m : Finmap fun _ : K => V) :
    replay m writes = m ↔
      ∀ key value, last writes key = some value → m.lookup key = some value := by
  constructor
  · intro h key value hlast
    have hget := lookup_replay m writes key
    rw [h, hlast] at hget
    exact hget
  · intro h
    apply ext_lookup
    intro key
    rw [lookup_replay]
    cases hlast : last writes key with
    | none => rfl
    | some value => exact (h key value hlast).symm

theorem exists_last_of_ne_nil {writes : List (K × V)} (h : writes ≠ []) :
    ∃ key value, last writes key = some value := by
  cases writes with
  | nil => exact absurd rfl h
  | cons w writes =>
    refine ⟨w.1, ?_⟩
    rw [last, if_pos rfl]
    cases last writes w.1 with
    | none => exact ⟨w.2, rfl⟩
    | some value => exact ⟨value, rfl⟩

section
variable {α ε : Type} {write : α → Except ε (K × V)} {es : List α} {m : Finmap fun _ : K => V}

def insertAll (write : α → Except ε (K × V)) (entries : List α) :
    Except ε (Finmap fun _ : K => V) :=
  entries.foldlM (fun m entry => do
    let w ← write entry
    return m.insert w.1 w.2) ∅

theorem insertAll_concat :
    insertAll write (es ++ [entry]) = (do
      let m ← insertAll write es
      let w ← write entry
      return m.insert w.1 w.2) := by
  rw [insertAll, foldlM_append]
  refine congrArg (_ >>= ·) (funext fun m => ?_)
  rw [foldlM_cons]
  cases write entry <;> rfl

theorem insertAll_concat_eq_ok {entry : α} : insertAll write (es ++ [entry]) = .ok m ↔
    ∃ m₀ w, insertAll write es = .ok m₀ ∧ write entry = .ok w ∧ m = m₀.insert w.1 w.2 := by
  rw [insertAll_concat]
  cases insertAll write es with
  | error e => exact iff_of_false nofun nofun
  | ok m₀ =>
    cases hw : write entry with
    | error e => exact iff_of_false nofun nofun
    | ok w =>
      refine ⟨fun h => ⟨m₀, w, rfl, rfl, (Except.ok.inj h).symm⟩, ?_⟩
      rintro ⟨_, _, h₀, h, rfl⟩
      cases h₀
      cases h
      rfl

theorem exists_insertAll_iff :
    (∃ m, insertAll write es = .ok m) ↔ ∀ entry ∈ es, ∃ w, write entry = .ok w := by
  induction es using reverseRecOn with
  | nil => exact iff_of_true ⟨∅, rfl⟩ nofun
  | append_singleton es entry ih =>
    simp only [insertAll_concat_eq_ok, forall_mem_append, forall_mem_singleton, ← ih]
    constructor
    · rintro ⟨_, m₀, w, h₀, hw, -⟩
      exact ⟨⟨m₀, h₀⟩, w, hw⟩
    · rintro ⟨⟨m₀, h₀⟩, w, hw⟩
      exact ⟨_, m₀, w, h₀, hw, rfl⟩

def Consistent (write : α → Except ε (K × V)) (entries : List α) : Prop :=
  ∀ entry ∈ entries, ∀ entry' ∈ entries, ∀ k v v',
    write entry = .ok (k, v) → write entry' = .ok (k, v') → v = v'

theorem lookup_insertAll (h : Consistent write es) (hm : insertAll write es = .ok m)
    : m.lookup k = some v ↔ ∃ entry ∈ es, write entry = .ok (k, v) := by
  induction es using reverseRecOn generalizing m with
  | nil =>
    cases hm
    exact iff_of_false (by simp) nofun
  | append_singleton es entry ih =>
    obtain ⟨m₀, ⟨k', v'⟩, h₀, hw, rfl⟩ := insertAll_concat_eq_ok.mp hm
    have hlast : entry ∈ es ++ [entry] := mem_concat_self
    have ih := ih (fun a ha b hb => h a (mem_append_left _ ha) b (mem_append_left _ hb)) h₀
    by_cases hk : k = k'
    · subst hk
      rw [lookup_insert, Option.some.injEq]
      constructor
      · rintro rfl
        exact ⟨entry, hlast, hw⟩
      · rintro ⟨other, hoth, hwot⟩
        exact h entry hlast other hoth k v' v hw hwot
    · rw [lookup_insert_of_ne _ hk, ih]
      constructor
      · rintro ⟨other, hoth, hwot⟩
        exact ⟨other, mem_append_left _ hoth, hwot⟩
      · rintro ⟨other, hoth, hwot⟩
        rcases mem_append.mp hoth with hoth | hoth
        · exact ⟨other, hoth, hwot⟩
        · rw [mem_singleton.mp hoth, hw] at hwot
          cases hwot
          exact absurd rfl hk

theorem insertAll_perm (h : Consistent write es) (hwr : ∀ entry ∈ es, write' entry = write entry)
    (hperm : es.Perm es') (hm : insertAll write es = .ok m) : insertAll write' es' = .ok m := by
  have hents := exists_insertAll_iff.mp ⟨m, hm⟩
  obtain ⟨m', hm'⟩ : ∃ m', insertAll write' es' = .ok m' := by
    refine exists_insertAll_iff.mpr fun entry hent => ?_
    rw [hwr entry (hperm.mem_iff.mpr hent)]
    exact hents entry (hperm.mem_iff.mpr hent)
  have h' : Consistent write' es' := by
    intro a ha b hb
    rw [← hperm.mem_iff] at ha hb
    rw [hwr a ha, hwr b hb]
    exact h a ha b hb
  rw [hm']
  refine congrArg Except.ok (ext_lookup fun k => Option.ext fun v => ?_)
  rw [lookup_insertAll h' hm', lookup_insertAll h hm]
  refine exists_congr fun entry => ?_
  rw [hperm.mem_iff]
  exact and_congr_right fun hent => by rw [hwr entry (hperm.mem_iff.mpr hent)]

theorem lookup_of_last {v : V} (hent : entry ∈ es) (hw : write entry = .ok (k, v))
    (h : ∀ es', es.Perm es' → insertAll write es' = .ok m) : m.lookup k = some v := by
  obtain ⟨before, after, rfl⟩ := append_of_mem hent
  have hperm : (before ++ entry :: after).Perm (before ++ after ++ [entry]) :=
    perm_middle.trans (perm_append_singleton _ _).symm
  obtain ⟨m₀, w, -, hw', rfl⟩ := insertAll_concat_eq_ok.mp (h _ hperm)
  cases hw.symm.trans hw'
  exact lookup_insert _

theorem forall_insertAll_perm_iff (hm : insertAll write es = .ok m) :
    (∀ es', es.Perm es' → insertAll write es' = .ok m) ↔ Consistent write es := by
  refine ⟨fun h entry hent entry' hent' k v v' hw hw' => ?_, fun h es' hperm =>
    insertAll_perm h (fun _ _ => rfl) hperm hm⟩
  exact Option.some.inj ((lookup_of_last hent hw h).symm.trans (lookup_of_last hent' hw' h))

end

end WriteLog
