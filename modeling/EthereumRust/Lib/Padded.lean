import Mathlib.Data.List.Basic

/-!
# Lists as unbounded arrays

A list is the beginning of an array that is blank behind it. Arrays are functions of the index, so a
write needs no room and a read has no end.
-/

namespace Padded

open List

variable {α : Type}

def padded (blank : α) (data : List α) : Nat → α := fun i => (data[i]?).getD blank

def read (cells : Nat → α) (offset size : Nat) : List α :=
  (List.range size).map fun k => cells (offset + k)

def write (cells : Nat → α) (offset : Nat) (data : List α) : Nat → α := fun i =>
  if i < offset then cells i else (data[i - offset]?).getD (cells i)

@[simp] theorem length_read : (read cells off size).length = size := by
  rw [read, length_map, length_range]

theorem getElem?_read :
    (read cells off size)[k]? = if k < size then some (cells (off + k)) else none := by
  rw [read, getElem?_map]
  split_ifs with hk
  · rw [getElem?_range hk, Option.map_some]
  · rw [getElem?_eq_none (by rw [length_range]; omega), Option.map_none]

theorem read_succ : read cells off (size + 1) = read cells off size ++ [cells (off + size)] := by
  rw [read, range_succ, map_append, map_singleton, read]

section
variable {data : List α}

theorem padded_of_lt (h : i < data.length) : padded blank data i = data[i] := by
  rw [padded, getElem?_eq_getElem h, Option.getD_some]

theorem padded_of_le (h : data.length ≤ i) : padded blank data i = blank := by
  rw [padded, getElem?_eq_none h, Option.getD_none]

theorem padded_append_replicate : padded blank (data ++ replicate n blank) = padded blank data := by
  funext i
  by_cases hi : i < data.length
  · rw [padded, getElem?_append_left hi, padded]
  · rw [padded_of_le (Nat.le_of_not_lt hi), padded, getElem?_append_right (by omega),
      getElem?_replicate]
    split <;> rfl

theorem read_padded : read (padded blank data) off size =
    (data.drop off).take size ++ replicate (size - (data.length - off)) blank := by
  refine ext_getElem? fun k => ?_
  rw [getElem?_read, getElem?_append, getElem?_take, getElem?_drop,
    getElem?_replicate, length_take, length_drop]
  by_cases hlen : off + k < data.length
  · rw [padded_of_lt hlen, getElem?_eq_getElem hlen]
    split_ifs <;> first | rfl | omega
  · rw [padded_of_le (Nat.le_of_not_lt hlen)]
    split_ifs <;> first | rfl | omega

theorem read_padded_of_le (h : off + size ≤ data.length) :
    read (padded blank data) off size = (data.drop off).take size := by
  rw [read_padded, Nat.sub_eq_zero_of_le (by omega), replicate_zero, append_nil]

theorem read_padded_of_ge (h : data.length ≤ off) :
    read (padded blank data) off size = replicate size blank := by
  rw [read_padded, drop_eq_nil_of_le h, take_nil, nil_append, Nat.sub_eq_zero_of_le h, Nat.sub_zero]

theorem padded_overwrite (h : off + bytes.length ≤ data.length) :
    padded blank (data.take off ++ bytes ++ data.drop (off + bytes.length)) =
      write (padded blank data) off bytes := by
  funext i
  have htake : (data.take off).length = off := by rw [length_take]; omega
  rw [write, padded, append_assoc, getElem?_append, htake]
  split_ifs with hi
  · rw [getElem?_take_of_lt hi, padded]
  · rw [getElem?_append]
    split_ifs with hbs
    · rw [getElem?_eq_getElem hbs, Option.getD_some, Option.getD_some]
    · rw [getElem?_drop, getElem?_eq_none (Nat.le_of_not_lt hbs), Option.getD_none, padded]
      congr 2
      omega

theorem padded_set (h : i < data.length) :
    padded blank (data.set i a) = write (padded blank data) i [a] := by
  rw [← padded_overwrite (by rwa [length_singleton]), set_eq_take_append_cons_drop,
    if_pos h, append_assoc, singleton_append, length_singleton]

end

end Padded
