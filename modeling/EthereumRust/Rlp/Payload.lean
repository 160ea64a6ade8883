import EthereumRust.Rlp.Items

/-!
# How the item readers start and stop

`decode_item` and `RlpItem::decode` read a header and find the end of the payload. Only then do they
differ: `RlpItem::decode` compares the end of the last item of a list with the end of the list. A
reader stops with `Err` or with a panic.
-/

namespace EthereumRust.Rlp
open Rust Method List

def toPayload : Read (Nat × Nat × Bool) := do
  let (offset, len, isData) ← decodeHeader
  skip offset
  let endPosition ← payloadEnd len
  return (endPosition, len, isData)

theorem decodeItem_eq_payload :
    decodeItem d =
      (do let (endPosition, len, isData) ← toPayload
          if isData then
            let bytes ← takeBytes len
            return .string bytes
          else
            let items ← decodeWhile decodeItem endPosition
            return .list items : Read RlpItem) d := by
  rw [decodeItem_eq, toPayload, bind_assoc]
  refine bind_congr rfl ?_
  rintro ⟨off, len, isData⟩ d₁ -
  rw [bind_assoc]
  refine bind_congr rfl fun _ d₂ _ => ?_
  rw [bind_assoc]
  rfl

theorem decodeWith_of_header_ne_ok (h : ∀ header d', decodeHeader d ≠ .ok header d') :
    RlpItem.decodeWith rd d = (decodeHeader >>= fun _ => fail eof : Read RlpItem) d := by
  cases hb : d.data[d.position]? with
  | none =>
    have hrest : d.rest = [] := drop_eq_nil_iff.mpr (getElem?_eq_none_iff.mp hb)
    rw [bind_of_err (decodeHeader_at_end hrest)]
    exact bind_of_err (isList_at_end hrest)
  | some byte =>
    have hlist : isList d = .ok (decide (0xc0 ≤ byte.toNat)) d := by
      rw [isList, bind_read]
      dsimp only [id]
      rw [hb]
      rfl
    refine (bind_of_ok hlist).trans ?_
    cases hhd : decodeHeader d with
    | ok header d' => exact absurd hhd (h header d')
    | err e d' =>
      rw [bind_of_err hhd]
      split
      · exact bind_of_err (bind_of_err hhd)
      · exact bind_of_err (bind_of_err hhd)
    | panic p =>
      rw [bind_of_panic hhd]
      split
      · exact bind_of_panic (bind_of_panic hhd)
      · exact bind_of_panic (bind_of_panic hhd)

theorem payload_inv (h : toPayload d = .ok (stop, len, isData) d') :
    ∃ off, readHeader d.rest = .ok (off, len, isData) ∧ d' = d.advance off ∧
      stop = d.position + off + len ∧ stop ≤ d.data.length := by
  rw [toPayload, bind_eq_ok] at h
  obtain ⟨⟨off, len, isData⟩, d, hhd, h⟩ := h
  obtain ⟨hh, rfl⟩ := decodeHeader_inv hhd
  obtain ⟨_, _, hskip, h⟩ := bind_eq_ok.mp h
  obtain ⟨stop, _, hend, h⟩ := bind_eq_ok.mp h
  obtain rfl := skip_inv hskip
  obtain ⟨rfl, rfl, hle⟩ := payloadEnd_inv hend
  cases h
  exact ⟨off, hh, rfl, rfl, hle⟩

theorem isData_of_payload (h : decodeHeader d = .ok (off, len, isData) d')
    (h' : toPayload d = .ok (stop, len', isData') d₁) : isData' = isData := by
  obtain ⟨off', hh', -⟩ := payload_inv h'
  rw [(decodeHeader_inv h).1] at hh'
  cases hh'
  rfl

section
variable {d' : Decoder}

theorem decodeBytes_of_header (h : decodeHeader d = .ok (off, len, true) d') :
    decodeBytes d = (do let (_, len, _) ← toPayload
                        takeBytes len : Read Bytes) d := by
  rw [decodeBytes, toPayload, bind_assoc, bind_of_ok h, bind_of_ok h]
  dsimp only
  rw [bind_assoc]
  refine bind_congr rfl fun _ d₁ _ => ?_
  rw [bind_assoc]
  rfl

theorem decodeListWith_of_header (rd : Read α)
    (h : decodeHeader d = .ok (off, len, false) d') :
    decodeListWith rd d =
      (do let (endPosition, len, _) ← toPayload
          let items ← decodeWhile rd endPosition
          let pos ← read Decoder.position
          if pos ≠ endPosition then
            fail (.decoder (.listLengthMismatch len (pos - (endPosition - len))))
          else return items : Read (List α)) d := by
  rw [decodeListWith, toPayload, bind_assoc, bind_of_ok h, bind_of_ok h]
  dsimp only
  rw [bind_assoc]
  refine bind_congr rfl fun _ d₁ _ => ?_
  rw [bind_assoc]
  rfl

end

/-- `RlpItem::decode` is `toPayload`, followed by the string or the items. -/
theorem decode_eq_payload :
    RlpItem.decode d =
      (do let (endPosition, len, isData) ← toPayload
          if isData then
            let bytes ← takeBytes len
            return .string bytes
          else
            let items ← decodeWhile RlpItem.decode endPosition
            let pos ← read Decoder.position
            if pos ≠ endPosition then
              fail (.decoder (.listLengthMismatch len (pos - (endPosition - len))))
            else return .list items : Read RlpItem) d := by
  rw [RlpItem.decode_eq]
  cases hhd : decodeHeader d with
  | err e d' =>
    rw [decodeWith_of_header_ne_ok (fun _ _ h => by rw [hhd] at h; cases h), toPayload,
      bind_assoc, bind_of_err hhd, bind_of_err hhd]
  | panic p =>
    rw [decodeWith_of_header_ne_ok (fun _ _ h => by rw [hhd] at h; cases h), toPayload,
      bind_assoc, bind_of_panic hhd, bind_of_panic hhd]
  | ok header d₁ =>
    obtain ⟨off, len, isData⟩ := header
    obtain ⟨hh, rfl⟩ := decodeHeader_inv hhd
    rw [RlpItem.decodeWith, bind_of_ok (isList_yields hh (append_nil _).symm)]
    cases isData with
    | true =>
      change (decodeBytes >>= fun bytes => pure (RlpItem.string bytes) : Read RlpItem) d₁ = _
      rw [bind_congr (decodeBytes_of_header hhd) fun _ _ _ => rfl, bind_assoc]
      refine bind_congr rfl ?_
      rintro ⟨stop, len', isData'⟩ d₂ hpay
      obtain rfl := isData_of_payload hhd hpay
      rfl
    | false =>
      change (decodeListWith RlpItem.decode >>= fun items => pure (RlpItem.list items) :
        Read RlpItem) d₁ = _
      rw [bind_congr (decodeListWith_of_header _ hhd) fun _ _ _ => rfl, bind_assoc]
      refine bind_congr rfl ?_
      rintro ⟨stop, len', isData'⟩ d₂ hpay
      obtain rfl := isData_of_payload hhd hpay
      rw [bind_assoc]
      refine bind_congr rfl fun items d₃ _ => ?_
      rw [bind_assoc, bind_read, bind_read]
      split
      · rfl
      · rfl

/-- A reader does not return `Ok`: it returns `Err`, or it panics. -/
def Stops (reader : Read α) (d : Decoder) (why : Option Panic) : Prop :=
  match reader d with
  | .ok _ _ => False
  | .err _ _ => why = none
  | .panic p => why = some p

section
variable {rd rd' : Read α} {d d' : Decoder} {why : Option Panic}

theorem stops_congr (h : rd d = rd' d') : Stops rd d why ↔ Stops rd' d' why := by
  rw [Stops, Stops, h]

theorem not_stops_of_ok (h : rd d = .ok a d') : ¬Stops rd d why := by
  rw [Stops, h]
  exact id

theorem stops_of_err (h : rd d = .err e d') : Stops rd d none := by
  rw [Stops, h]

theorem stops_of_panic (h : rd d = .panic p) : Stops rd d (some p) := by
  rw [Stops, h]

theorem Stops.unique (h : Stops rd d why) (h' : Stops rd d why') : why = why' := by
  unfold Stops at h h'
  cases hd : rd d with
  | ok a d' =>
    rw [hd] at h
    exact h.elim
  | err e d' =>
    rw [hd] at h h'
    exact h.trans h'.symm
  | panic p =>
    rw [hd] at h h'
    exact h.trans h'.symm

theorem stops_bind_iff {f : α → Read β} :
    Stops (rd >>= f) d why ↔ Stops rd d why ∨ ∃ a d', rd d = .ok a d' ∧ Stops (f a) d' why := by
  cases h : rd d with
  | ok a d' => simp [stops_congr (bind_of_ok h), not_stops_of_ok h]
  | err e d' => simp [Stops, bind_of_err h, h]
  | panic p => simp [Stops, bind_of_panic h, h]

theorem stops_bind_pure {f : α → β} : Stops (rd >>= fun a => pure (f a)) d why ↔ Stops rd d why :=
  stops_bind_iff.trans (or_iff_left fun ⟨_, _, _, h⟩ => not_stops_of_ok rfl h)

theorem bind_singleton_inj
    (h : (rd >>= fun a => pure [a] : Read (List α)) d = (rd' >>= fun a => pure [a]) d) :
    rd d = rd' d := by
  cases h₁ : rd d <;> cases h₂ : rd' d <;> simp_all [Bind.bind, Pure.pure]

theorem decodeWhile_of_le (h : stop ≤ d.position) : decodeWhile rd stop d = .ok [] d :=
  decodeWhileF_of_le h

theorem decodeWhile_of_lt (hfwd : Forward rd) (h : d.position < stop) :
    decodeWhile rd stop d =
      (do let first ← rd
          let items ← decodeWhile rd stop
          return first :: items : Read (List α)) d := by
  obtain ⟨n, rfl⟩ := Nat.exists_eq_succ_of_ne_zero (show stop ≠ 0 by omega)
  rw [decodeWhile, decodeWhileF_of_lt h]
  refine bind_congr rfl fun a d₁ ha => ?_
  have hpos := (hfwd ha).2
  refine bind_congr ?_ fun _ _ _ => rfl
  exact decodeWhileF_congr hfwd (fun _ _ _ => rfl) (by omega) (Nat.sub_le _ _)

theorem decodeWhile_one (hfwd : Forward rd) :
    decodeWhile rd (d.position + 1) d = (do let a ← rd; return [a] : Read (List α)) d := by
  rw [decodeWhile_of_lt hfwd (Nat.lt_succ_self _)]
  refine bind_congr rfl fun a d₁ ha => ?_
  exact bind_of_ok (decodeWhile_of_le (hfwd ha).2)

theorem stops_decodeWhile_iff (rd : Read α) (hfwd : Forward rd) (h : d.position < stop) :
    Stops (decodeWhile rd stop) d why ↔
      Stops rd d why ∨ ∃ a d₁, rd d = .ok a d₁ ∧ Stops (decodeWhile rd stop) d₁ why := by
  rw [Stops, decodeWhile_of_lt hfwd h]
  refine stops_bind_iff.trans ?_
  simp only [stops_bind_pure]

end

theorem forward_decodeItem : Forward decodeItem := fun h =>
  progresses_decodeItemWith.nested_forward h

theorem forward_decode : Forward RlpItem.decode := fun h => progresses_decodeWith.nested_forward h

end EthereumRust.Rlp
