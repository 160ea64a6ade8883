import EthereumRust.Trie.NodeCodec

/-!
# A list header decoder

One way to do what `decode_list_header` has to do: read the whole list, count its items, and go back
behind the header.
-/

namespace EthereumRust.Trie
open Rust Method Rlp

def countList : Read Nat := do
  let self ← read id
  let (offset, _, _) ← decodeHeader
  match ← RlpItem.decode with
  | .list items =>
    update fun _ => self.advance offset
    return items.length
  | .string _ => fail (.invalidData "Expected list, got data")

def countItems : Read Nat := do
  if ← isList then countList else fail (.invalidData "Expected list, got data")

theorem countItems_counts {strings : List Bytes} {d : Decoder}
    (hlen : (strings.flatMap encodeBytes).length < 2 ^ 32) (hd : d.data.length ≤ isizeMax)
    (hrest : d.rest = encodePayload (strings.flatMap encodeBytes) ++ tail) :
    countItems d = .ok strings.length
      (d.advance (header 0xc0 0xf7 (strings.flatMap encodeBytes).length).length) := by
  have hall : ∀ s ∈ strings, s.length < 2 ^ 32 := fun s hs =>
    lt_of_le_of_lt (length_le_flatMap_encodeBytes hs) hlen
  have hrea := reads_encodePayload (readsAll_map_string hall) hlen
  have hhd := readHeader_kindHeader false hlen
  have hlist := isList_yields hhd hrest
  refine (bind_of_ok hlist).trans ?_
  refine (bind_of_ok (decodeHeader_yields hhd hd hrest)).trans ?_
  refine (bind_of_ok (decode_yields hrea d tail hd hrest)).trans ?_
  exact congrArg (fun n => Outcome.ok n _) (List.length_map _)

theorem countItems_refuses (hrest : d.rest = byte :: tail)
    (hbyte : byte.toNat < 0xc0) : ∃ e d', countItems d = .err e d' := by
  have hlist : isList d = .ok false d := by
    rw [isList, bind_read]
    dsimp only [id]
    rw [Decoder.getElem?_of_rest hrest]
    change Outcome.ok (decide (0xc0 ≤ byte.toNat)) d = _
    rw [decide_eq_false (not_le.mpr hbyte)]
  exact ⟨_, _, bind_of_ok hlist⟩

namespace Counting

scoped instance : ListHeader := ⟨countItems⟩

scoped instance : LawfulListHeader where
  counts _ _ _ := countItems_counts
  refuses _ _ _ := countItems_refuses

end Counting

end EthereumRust.Trie
