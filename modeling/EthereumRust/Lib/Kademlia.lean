import EthereumRust.Lib.Batches
import EthereumRust.Lib.Bytes

/-!
# Kademlia tables

Keys are byte strings of one length, and their distance is the number that their XOR is. A table is
an array of buckets: `place` says in which bucket a key belongs, and `Placed` that every item is
there and that no key occurs twice in a bucket.
-/

namespace Kademlia

open Rust List Batches

def distance (a b : List UInt8) : Nat := ofBigEndian (List.zipWith (· ^^^ ·) a b)

section
variable {tgt : List UInt8}

theorem ofBigEndian_inj (hlen : a.length = b.length) (h : ofBigEndian a = ofBigEndian b) :
    a = b := by
  rw [← toBigEndian_ofBigEndian a, hlen, h, toBigEndian_ofBigEndian]

theorem zipWith_xor_inj (ha : a.length = tgt.length) (hb : b.length = tgt.length)
    (h : zipWith (· ^^^ ·) a tgt = zipWith (· ^^^ ·) b tgt) : a = b := by
  refine ext_getElem (ha.trans hb.symm) fun i hi hi' => ?_
  have htgt : i < tgt.length := ha ▸ hi
  have hbyte := congrArg (·[i]?) h
  simp only [getElem?_zipWith, getElem?_eq_getElem, hi, hi', htgt, Option.some.injEq] at hbyte
  exact (UInt8.xor_left_inj _).mp hbyte

theorem distance_inj (ha : a.length = tgt.length) (hb : b.length = tgt.length)
    (h : distance a tgt = distance b tgt) : a = b := by
  refine zipWith_xor_inj ha hb (ofBigEndian_inj ?_ h)
  rw [length_zipWith, length_zipWith, ha, hb]

end

section
variable {α β K : Type} {items : β → List α} {place : K → Option Nat}
  {buckets : List β} {i : Nat} {f : β → β}

structure Placed (items : β → List α) (key : α → K) (place : K → Option Nat)
    (buckets : List β) : Prop where
  place_eq : ∀ {i : Nat} {bucket : β}, buckets[i]? = some bucket →
    ∀ a ∈ items bucket, place (key a) = some i
  nodup : ∀ bucket ∈ buckets, ((items bucket).map key).Nodup

theorem placed_of_forall_eq_nil (h : ∀ bkt ∈ buckets, items bkt = []) :
    Placed items key place buckets where
  place_eq := by
    intro i bkt hbkt a ha
    rw [h bkt (mem_of_getElem? hbkt)] at ha
    cases ha
  nodup bkt hbkt := by
    rw [h bkt hbkt]
    exact nodup_nil

theorem Placed.nodup_flatMap (h : Placed items key place buckets) :
    ((buckets.flatMap items).map key).Nodup := by
  rw [map_flatMap, List.nodup_flatMap]
  refine ⟨h.nodup, pairwise_iff_getElem.mpr fun i j hi hj hlt => ?_⟩
  refine disjoint_left.mpr fun k hka hkb => ?_
  obtain ⟨a, ha, rfl⟩ := mem_map.mp hka
  obtain ⟨b, hb, hkey⟩ := mem_map.mp hkb
  have hpl := h.place_eq (getElem?_eq_getElem hi) a ha
  rw [← hkey, h.place_eq (getElem?_eq_getElem hj) b hb] at hpl
  exact hlt.ne' (Option.some.inj hpl)

theorem forall_modify {P : β → Prop} (h : ∀ bkt ∈ buckets, P bkt)
    (hf : ∀ bkt, buckets[i]? = some bkt → P bkt → P (f bkt)) :
    ∀ bkt ∈ buckets.modify i f, P bkt := by
  intro bkt hbkt
  obtain ⟨j, hj⟩ := mem_iff_getElem?.mp hbkt
  rw [getElem?_modify] at hj
  obtain ⟨old, hold, rfl⟩ := Option.map_eq_some_iff.mp hj
  split_ifs with hij
  · exact hf old (hij ▸ hold) (h old (mem_of_getElem? hold))
  · exact h old (mem_of_getElem? hold)

theorem Placed.modify (h : Placed items key place buckets)
    (hmem : ∀ bkt, buckets[i]? = some bkt →
      ∀ a ∈ items (f bkt), a ∈ items bkt ∨ place (key a) = some i)
    (hnd : ∀ bkt, buckets[i]? = some bkt →
      ((items bkt).map key).Nodup → ((items (f bkt)).map key).Nodup) :
    Placed items key place (buckets.modify i f) where
  place_eq := by
    intro j bkt hbkt a ha
    rw [getElem?_modify] at hbkt
    obtain ⟨old, hold, rfl⟩ := Option.map_eq_some_iff.mp hbkt
    by_cases hij : i = j
    · rw [if_pos hij] at ha
      subst hij
      rcases hmem old hold a ha with ha | ha
      · exact h.place_eq hold a ha
      · exact ha
    · rw [if_neg hij] at ha
      exact h.place_eq hold a ha
  nodup := forall_modify h.nodup hnd

theorem mem_flatMap_iff :
    a ∈ buckets.flatMap items ↔ ∃ (j : Nat) (bkt : β), buckets[j]? = some bkt ∧ a ∈ items bkt := by
  rw [mem_flatMap]
  constructor
  · rintro ⟨bkt, hbkt, ha⟩
    obtain ⟨j, hj⟩ := mem_iff_getElem?.mp hbkt
    exact ⟨j, bkt, hj, ha⟩
  · rintro ⟨j, bkt, hj, ha⟩
    exact ⟨bkt, mem_of_getElem? hj, ha⟩

theorem mem_flatMap_modify
    (h : ∀ bkt, buckets[i]? = some bkt → (a ∈ items (f bkt) ↔ a ∈ items bkt)) :
    a ∈ (buckets.modify i f).flatMap items ↔ a ∈ buckets.flatMap items := by
  rw [mem_flatMap_iff, mem_flatMap_iff]
  refine exists_congr fun j => ?_
  rw [getElem?_modify]
  cases hbkt : buckets[j]? with
  | none => simp
  | some bkt =>
    by_cases hij : i = j
    · simp [hij, h bkt (hij ▸ hbkt)]
    · simp [hij]

end

section
variable {α K : Type} [DecidableEq K] {key : α → K}

def takeOut (key : α → K) (a : α) (l : List α) : List α := l.eraseP fun b => key b = key a

theorem map_takeOut : (takeOut key a l).map key = (l.map key).erase (key a) := by
  induction l with
  | nil => rfl
  | cons b l ih =>
    rw [takeOut, map_cons]
    by_cases h : key b = key a
    · simp [h]
    · simp [h, ← ih, takeOut]

theorem nodup_cons_takeOut (h : (l.map key).Nodup) : ((a :: takeOut key a l).map key).Nodup := by
  rw [map_cons, map_takeOut, nodup_cons]
  exact ⟨h.not_mem_erase, h.erase _⟩

theorem length_takeOut (key : α → K) (h : ∃ b ∈ l, key b = key a) :
    (takeOut key a l).length + 1 = l.length := by
  obtain ⟨b, hb, hkey⟩ := h
  rw [takeOut, length_eraseP_of_mem hb (decide_eq_true hkey)]
  have := length_pos_of_mem hb
  omega

end

section
variable {α D : Type} [LinearOrder D] {distance : α → D}

/-- `r` are the `n` items of `l` with the least distances, or all of them if there are fewer, in
ascending order. -/
structure IsNearest (distance : α → D) (n : Nat) (l r : List α) : Prop where
  length_eq : r.length = min n l.length
  subperm : r.Subperm l
  ascending : r.Pairwise fun a b => distance a < distance b
  nearest : ∀ a ∈ l, a ∉ r → ∀ b ∈ r, distance b < distance a

theorem isNearest_sortByKey (h : (l.map distance).Nodup) (n : Nat) :
    IsNearest distance n l ((sortByKey distance l).take n) := by
  have hperm := perm_sortByKey distance l
  have hsrt : (sortByKey distance l).Pairwise fun a b => distance a < distance b := by
    have hne : l.Pairwise fun a b => distance a ≠ distance b := pairwise_map.mp h
    refine (pairwise_sortByKey hne).imp fun hsta => ?_
    rcases hsta with hlt | ⟨heq, hne⟩
    · exact hlt
    · exact absurd heq hne
  refine ⟨?_, ?_, hsrt.sublist (take_sublist n _), ?_⟩
  · rw [length_take, hperm.length_eq]
  · exact (take_sublist n _).subperm.trans hperm.subperm
  · intro a ha hout b hb
    have ha' := hperm.mem_iff.mpr ha
    rw [← take_append_drop n (sortByKey distance l)] at ha' hsrt
    rcases mem_append.mp ha' with ha' | ha'
    · exact absurd ha' hout
    · exact (pairwise_append.mp hsrt).2.2 b hb a ha'

end

end Kademlia
