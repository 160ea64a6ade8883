import EthereumRust.Rlp.Payload

/-!
# The headers that `decode_item` comes to

`decode_item` calls itself at the front of a list and behind each item, as long as the position lies
before the end that the header announces. The last item may reach beyond that end, and `decode_item`
does not look; `RlpItem::decode` does, and returns `Err`. Which headers are read on the way is said
here on the bytes alone.
-/

namespace EthereumRust.Rlp
open Rust Method Decoder

/-- There is a header at `d`, with all of the payload that it announces. -/
def Decoder.Holds (d : Decoder) (offset len : Nat) (isData : Bool) : Prop :=
  readHeader d.rest = .ok (offset, len, isData) ∧ d.position + offset + len ≤ d.data.length

/-- Read item by item from `d` until the position is not before `stop`, and end on `d'`. -/
inductive Runs : Nat → Decoder → Decoder → Prop where
  | done : stop ≤ d.position → Runs stop d d
  | string : d.position < stop → d.Holds offset len true → Runs stop (d.advance (offset + len)) d' →
      Runs stop d d'
  | list : d.position < stop → d.Holds offset len false →
      Runs (d.position + offset + len) (d.advance offset) d₁ → Runs stop d₁ d' → Runs stop d d'

/-- Reading item by item from `d` up to `stop` comes to the header at `d'`. -/
inductive Visits : Nat → Decoder → Decoder → Prop where
  | here : d.position < stop → Visits stop d d
  | string : d.position < stop → d.Holds offset len true →
      Visits stop (d.advance (offset + len)) d' → Visits stop d d'
  | inside : d.position < stop → d.Holds offset len false →
      Visits (d.position + offset + len) (d.advance offset) d' → Visits stop d d'
  | later : d.position < stop → d.Holds offset len false →
      Runs (d.position + offset + len) (d.advance offset) d₁ → Visits stop d₁ d' → Visits stop d d'

/-- There is no header at `d`, or it announces bytes that are not there. -/
inductive Malformed (d : Decoder) : Prop where
  | header (h : readHeader d.rest = .error e)
  | beyond (h : readHeader d.rest = .ok (offset, len, isData))
      (hgt : d.data.length < d.position + offset + len)
      (hlt : d.position + offset + len < wordBound)

/-- The header at `d` announces an end beyond the range of `usize`. -/
def Overflows (d : Decoder) : Prop :=
  ∃ offset len isData, readHeader d.rest = .ok (offset, len, isData) ∧
    wordBound ≤ d.position + offset + len

/-- The items of a list at `d` end where its header announces. -/
def InPlace (d : Decoder) : Prop :=
  ∀ offset len d', d.Holds offset len false →
    Runs (d.position + offset + len) (d.advance offset) d' →
    d'.position = d.position + offset + len

theorem Runs.forward (h : Runs stop d d') : d'.data = d.data ∧ d.position ≤ d'.position := by
  induction h with
  | done => exact ⟨rfl, le_refl _⟩
  | string _ _ _ ih =>
    exact ⟨ih.1, le_trans (Nat.le_add_right _ _) ih.2⟩
  | list _ _ _ _ ih₁ ih₂ =>
    exact ⟨ih₂.1.trans ih₁.1, le_trans (Nat.le_add_right _ _) (le_trans ih₁.2 ih₂.2)⟩

theorem Runs.le_position (h : Runs stop d d') : stop ≤ d'.position := by
  induction h with
  | done hge => exact hge
  | string _ _ _ ih => exact ih
  | list _ _ _ _ _ ih => exact ih

theorem Visits.data_eq (h : Visits stop d d') : d'.data = d.data := by
  induction h with
  | here => rfl
  | string _ _ _ ih => exact ih
  | inside _ _ _ ih => exact ih
  | later _ _ hruns _ ih => exact ih.trans hruns.forward.1

theorem Visits.position_lt (h : Visits stop d d') : d.position < stop := by
  cases h <;> assumption

section
variable {d : Decoder} {off len : Nat}

theorem Visits.of_string (hh : readHeader d.rest = .ok (off, len, true))
    (h : Visits stop d d') : d' = d ∨ Visits stop (d.advance (off + len)) d' := by
  cases h with
  | here => exact .inl rfl
  | string _ hh' hvis =>
    cases hh.symm.trans hh'.1
    exact .inr hvis
  | inside _ hh' => cases hh.symm.trans hh'.1
  | later _ hh' => cases hh.symm.trans hh'.1

theorem Visits.of_list (hh : readHeader d.rest = .ok (off, len, false)) (h : Visits stop d d') :
    d' = d ∨ Visits (d.position + off + len) (d.advance off) d' ∨
      ∃ d₁, Runs (d.position + off + len) (d.advance off) d₁ ∧ Visits stop d₁ d' := by
  cases h with
  | here => exact .inl rfl
  | string _ hh' => cases hh.symm.trans hh'.1
  | inside _ hh' hvis =>
    cases hh.symm.trans hh'.1
    exact .inr (.inl hvis)
  | later _ hh' hruns hvis =>
    cases hh.symm.trans hh'.1
    exact .inr (.inr ⟨_, hruns, hvis⟩)

theorem payload_of (hd : d.data.length ≤ isizeMax)
    (hh : readHeader d.rest = .ok (off, len, isData)) :
    toPayload d = (do
      let stop ← payloadEnd len
      return (stop, len, isData) : Read (Nat × Nat × Bool)) (d.advance off) := by
  have hhd : decodeHeader d = .ok (off, len, isData) d := by
    rw [decodeHeader_of hd, hh]
    rfl
  have hskip : skip off d = .ok () (d.advance off) :=
    skip_yields hd (List.append_nil _).symm (length_pos_of_header hh) (readHeader_bounds hh).1
  rw [toPayload, bind_of_ok hhd]
  exact bind_of_ok hskip

theorem payload_of_le (hd : d.data.length ≤ isizeMax) (hh : d.Holds off len isData) :
    toPayload d = .ok (d.position + off + len, len, isData) (d.advance off) :=
  (payload_of hd hh.1).trans (bind_of_ok (payloadEnd_of hh.2 hd))

theorem payloadEnd_beyond (hlt : d.position + len < wordBound)
    (hgt : d.data.length < d.position + len) : payloadEnd len d = .err eof d := by
  change (checked (addUsize d.position len) >>= _ : Read Nat) d = _
  rw [addUsize_of_lt hlt]
  exact congrFun (if_pos hgt) d

theorem payloadEnd_overflows (hge : wordBound ≤ d.position + len) :
    payloadEnd len d = .panic .arithmetic := by
  change (checked (addUsize d.position len) >>= _ : Read Nat) d = _
  rw [addUsize, if_neg (not_lt.mpr hge)]
  rfl

theorem Malformed.stops (hd : d.data.length ≤ isizeMax) (h : Malformed d) :
    Stops toPayload d none := by
  cases h with
  | @header e h =>
    have hhd : decodeHeader d = .err e d := by
      rw [decodeHeader_of hd, h]
      rfl
    exact stops_of_err (bind_of_err hhd)
  | @beyond off len isData h hgt hlt =>
    refine (stops_congr (payload_of hd h)).mpr (stops_bind_pure.mpr ?_)
    exact stops_of_err (payloadEnd_beyond hlt hgt)

theorem Overflows.stops (hd : d.data.length ≤ isizeMax) (h : Overflows d) :
    Stops toPayload d (some .arithmetic) := by
  obtain ⟨off, len, isData, hh, hge⟩ := h
  refine (stops_congr (payload_of hd hh)).mpr (stops_bind_pure.mpr ?_)
  exact stops_of_panic (payloadEnd_overflows hge)

end

theorem header_cases (d : Decoder) :
    Malformed d ∨ Overflows d ∨ ∃ off len isData, d.Holds off len isData := by
  cases hh : readHeader d.rest with
  | error e => exact .inl (.header hh)
  | ok header =>
    obtain ⟨off, len, isData⟩ := header
    rcases lt_or_ge d.data.length (d.position + off + len) with hgt | hle
    · rcases lt_or_ge (d.position + off + len) wordBound with hlt | hge
      · exact .inl (.beyond hh hgt hlt)
      · exact .inr (.inl ⟨off, len, isData, hh, hge⟩)
    · exact .inr (.inr ⟨off, len, isData, hh, hle⟩)

section
variable {d : Decoder} (hd : d.data.length ≤ isizeMax)
include hd

theorem stops_payload_none_iff : Stops toPayload d none ↔ Malformed d := by
  refine ⟨fun h => ?_, (·.stops hd)⟩
  rcases header_cases d with hbad | hover | ⟨off, len, isData, hh⟩
  · exact hbad
  · cases h.unique (hover.stops hd)
  · exact absurd h (not_stops_of_ok (payload_of_le hd hh))

theorem stops_payload_some_iff : (∃ p, Stops toPayload d (some p)) ↔ Overflows d := by
  refine ⟨fun ⟨p, h⟩ => ?_, fun h => ⟨_, h.stops hd⟩⟩
  rcases header_cases d with hbad | hover | ⟨off, len, isData, hh⟩
  · cases h.unique (hbad.stops hd)
  · exact hover
  · exact absurd h (not_stops_of_ok (payload_of_le hd hh))

variable {off len : Nat}

theorem decodeItem_of_string (hh : d.Holds off len true) :
    decodeItem d = .ok (.string ((d.advance off).rest.take len)) (d.advance (off + len)) := by
  rw [decodeItem_eq_payload, bind_of_ok (payload_of_le hd hh)]
  have htake := takeBytes_of (d := d.advance off) hh.2 hd
  rw [advance_advance] at htake
  exact bind_of_ok htake

theorem decode_of_string (hh : d.Holds off len true) : RlpItem.decode d = decodeItem d := by
  have hpay := payload_of_le hd hh
  rw [decode_eq_payload, decodeItem_eq_payload, bind_of_ok hpay, bind_of_ok hpay]
  rfl

theorem decodeItem_of_list (hh : d.Holds off len false) :
    decodeItem d = (do let items ← decodeWhile decodeItem (d.position + off + len)
                       return .list items : Read RlpItem) (d.advance off) := by
  rw [decodeItem_eq_payload, bind_of_ok (payload_of_le hd hh)]
  rfl

theorem decode_of_list (hh : d.Holds off len false) :
    RlpItem.decode d =
      (do let items ← decodeWhile RlpItem.decode (d.position + off + len)
          let pos ← read position
          if pos ≠ d.position + off + len then
            fail (.decoder (.listLengthMismatch len
              (pos - (d.position + off + len - len))))
          else return .list items : Read RlpItem) (d.advance off) := by
  rw [decode_eq_payload, bind_of_ok (payload_of_le hd hh)]
  rfl

end

/-- The induction over what is read from `d` up to `stop`: a string is followed by what is behind
it, a list by what is inside, and then by what is behind its last item. -/
theorem scan_induct {P : Nat → Decoder → Prop} (hdone : ∀ stop d, stop ≤ d.position → P stop d)
    (hstop : ∀ stop d why, d.data.length ≤ isizeMax → d.position < stop → Stops toPayload d why →
      P stop d)
    (hstr : ∀ stop d off len, d.data.length ≤ isizeMax → d.position < stop → d.Holds off len true →
      P stop (d.advance (off + len)) → P stop d)
    (hlist : ∀ stop d off len, d.data.length ≤ isizeMax → d.position < stop →
      d.Holds off len false → P (d.position + off + len) (d.advance off) →
      (∀ d₁, Runs (d.position + off + len) (d.advance off) d₁ → P stop d₁) → P stop d)
    (stop : Nat) (d : Decoder) (hd : d.data.length ≤ isizeMax) : P stop d := by
  induction hn : d.data.length - d.position using Nat.strong_induction_on generalizing stop d with
  | h n ih =>
    rcases lt_or_ge d.position stop with hlt | hge
    · rcases header_cases d with hbad | hover | ⟨off, len, isData, hh⟩
      · exact hstop stop d _ hd hlt (hbad.stops hd)
      · exact hstop stop d _ hd hlt (hover.stops hd)
      · have hbou := readHeader_bounds hh.1
        have hin := length_pos_of_header hh.1
        rw [length_rest] at hin
        cases isData with
        | true =>
          refine hstr stop d off len hd hlt hh (ih _ ?_ stop _ hd rfl)
          rw [advance_data, advance_position]
          omega
        | false =>
          have hoff := hbou.2.2 rfl
          refine hlist stop d off len hd hlt hh (ih _ ?_ _ _ hd rfl) fun d₁ hruns => ?_
          · rw [advance_data, advance_position]
            omega
          · obtain ⟨hdata, hpos⟩ := hruns.forward
            rw [advance_data] at hdata
            rw [advance_position] at hpos
            refine ih _ ?_ stop d₁ (by rwa [hdata]) rfl
            rw [hdata]
            omega
    · exact hdone stop d hge

theorem runs_or_stops (hd : d.data.length ≤ isizeMax) :
    (∃ d', Runs stop d d') ∨ ∃ d' why, Visits stop d d' ∧ Stops toPayload d' why := by
  refine scan_induct (P := fun stop d => (∃ d', Runs stop d d') ∨
    ∃ d' why, Visits stop d d' ∧ Stops toPayload d' why) ?_ ?_ ?_ ?_ stop d hd
  · exact fun stop d hge => .inl ⟨d, .done hge⟩
  · exact fun stop d why _ hlt hstp => .inr ⟨d, why, .here hlt, hstp⟩
  · intro stop d off len hd hlt hh ih
    rcases ih with ⟨d', hruns⟩ | ⟨d', why, hvis, hstp⟩
    · exact .inl ⟨d', .string hlt hh hruns⟩
    · exact .inr ⟨d', why, .string hlt hh hvis, hstp⟩
  · intro stop d off len hd hlt hh ih₁ ih₂
    rcases ih₁ with ⟨d₁, hruns₁⟩ | ⟨d', why, hvis, hstp⟩
    · rcases ih₂ d₁ hruns₁ with ⟨d', hruns⟩ | ⟨d', why, hvis, hstp⟩
      · exact .inl ⟨d', .list hlt hh hruns₁ hruns⟩
      · exact .inr ⟨d', why, .later hlt hh hruns₁ hvis, hstp⟩
    · exact .inr ⟨d', why, .inside hlt hh hvis, hstp⟩

theorem decodeWhile_cons (hlt : d.position < stop) (hitem : decodeItem d = .ok item d₁)
    (hits : decodeWhile decodeItem stop d₁ = .ok items d') :
    decodeWhile decodeItem stop d = .ok (item :: items) d' := by
  rw [decodeWhile_of_lt forward_decodeItem hlt]
  exact (bind_of_ok hitem).trans (bind_of_ok hits)

theorem Runs.exists_items (hd : d.data.length ≤ isizeMax) (h : Runs stop d d') :
    ∃ items, decodeWhile decodeItem stop d = .ok items d' := by
  induction h with
  | done hge => exact ⟨[], decodeWhile_of_le hge⟩
  | string hlt hh _ ih =>
    obtain ⟨items, hits⟩ := ih hd
    exact ⟨_, decodeWhile_cons hlt (decodeItem_of_string hd hh) hits⟩
  | list hlt hh hruns _ ih₁ ih₂ =>
    obtain ⟨inner, hinn⟩ := ih₁ hd
    obtain ⟨items, hits⟩ := ih₂ (by rwa [hruns.forward.1])
    exact ⟨_, decodeWhile_cons hlt ((decodeItem_of_list hd hh).trans (bind_of_ok hinn)) hits⟩

theorem Visits.stops (hd : d.data.length ≤ isizeMax) (h : Visits stop d d')
    (hstp : Stops toPayload d' why) : Stops (decodeWhile decodeItem stop) d why := by
  induction h with
  | here hlt =>
    refine (stops_decodeWhile_iff _ forward_decodeItem hlt).mpr (.inl ?_)
    rw [stops_congr decodeItem_eq_payload]
    exact stops_bind_iff.mpr (.inl hstp)
  | string hlt hh _ ih =>
    have hitem := decodeItem_of_string hd hh
    exact (stops_decodeWhile_iff _ forward_decodeItem hlt).mpr (.inr ⟨_, _, hitem, ih hd hstp⟩)
  | inside hlt hh _ ih =>
    refine (stops_decodeWhile_iff _ forward_decodeItem hlt).mpr (.inl ?_)
    rw [stops_congr (decodeItem_of_list hd hh)]
    exact stops_bind_pure.mpr (ih hd hstp)
  | later hlt hh hruns _ ih =>
    obtain ⟨items, hits⟩ := hruns.exists_items (by rwa [advance_data])
    have hitem := (decodeItem_of_list hd hh).trans (bind_of_ok hits)
    refine (stops_decodeWhile_iff _ forward_decodeItem hlt).mpr (.inr ⟨_, _, hitem, ?_⟩)
    exact ih (by rwa [hruns.forward.1]) hstp

section
variable {d : Decoder} (hd : d.data.length ≤ isizeMax)
include hd

theorem runs_iff : Runs stop d d' ↔ ∃ items, decodeWhile decodeItem stop d = .ok items d' := by
  refine ⟨(·.exists_items hd), fun ⟨items, hits⟩ => ?_⟩
  rcases runs_or_stops hd with ⟨d₁, hruns⟩ | ⟨d₁, why, hvis, hstp⟩
  · obtain ⟨items₁, hits₁⟩ := hruns.exists_items hd
    cases hits.symm.trans hits₁
    exact hruns
  · exact absurd (hvis.stops hd hstp) (not_stops_of_ok hits)

theorem runs_advance_iff : Runs stop (d.advance off) d' ↔
    ∃ items, decodeWhile decodeItem stop (d.advance off) = .ok items d' :=
  runs_iff (d := d.advance off) hd

theorem stops_iff :
    Stops (decodeWhile decodeItem stop) d why ↔
      ∃ d', Visits stop d d' ∧ Stops toPayload d' why := by
  refine ⟨fun h => ?_, fun ⟨d', hvis, hstp⟩ => hvis.stops hd hstp⟩
  rcases runs_or_stops hd with ⟨d₁, hruns⟩ | ⟨d₁, why', hvis, hstp⟩
  · obtain ⟨items, hits⟩ := hruns.exists_items hd
    exact absurd h (not_stops_of_ok hits)
  · cases h.unique (hvis.stops hd hstp)
    exact ⟨d₁, hvis, hstp⟩

theorem stops_decodeItem_iff :
    Stops decodeItem d why ↔ ∃ d', Visits (d.position + 1) d d' ∧ Stops toPayload d' why := by
  rw [← stops_iff hd, stops_congr (decodeWhile_one forward_decodeItem)]
  exact stops_bind_pure.symm

end

section
variable {d : Decoder} {stop off len : Nat} (hd : d.data.length ≤ isizeMax)

theorem decode_of_stops (h : Stops toPayload d why) : RlpItem.decode d = decodeItem d := by
  rw [decode_eq_payload, decodeItem_eq_payload]
  exact bind_congr rfl fun a d' ha => absurd h (not_stops_of_ok ha)

theorem decodeWhile_decode_eq (hlt : d.position < stop) (hitem : RlpItem.decode d = decodeItem d)
    (h : ∀ item d₁, decodeItem d = .ok item d₁ →
      decodeWhile RlpItem.decode stop d₁ = decodeWhile decodeItem stop d₁) :
    decodeWhile RlpItem.decode stop d = decodeWhile decodeItem stop d := by
  rw [decodeWhile_of_lt forward_decode hlt, decodeWhile_of_lt forward_decodeItem hlt]
  refine bind_congr hitem fun item d₁ h₁ => bind_congr ?_ fun _ _ _ => rfl
  exact h item d₁ (hitem.symm.trans h₁)

include hd

theorem exists_runs_of_list (hh : d.Holds off len false) (h : decodeItem d = .ok item d₁) :
    Runs (d.position + off + len) (d.advance off) d₁ := by
  rw [decodeItem_of_list hd hh] at h
  obtain ⟨items, _, hits, h⟩ := bind_eq_ok.mp h
  cases h
  exact (runs_advance_iff hd).mpr ⟨items, hits⟩

/-- The two readers treat a list alike if they treat its items alike, unless it is overrun. -/
theorem decode_of_items (hh : d.Holds off len false)
    (heq : decodeWhile RlpItem.decode (d.position + off + len) (d.advance off) =
      decodeWhile decodeItem (d.position + off + len) (d.advance off)) :
    RlpItem.decode d = decodeItem d ∧ InPlace d ∨ Stops RlpItem.decode d none ∧ ¬InPlace d := by
  have hpl : InPlace d ↔ ∀ items d', decodeWhile decodeItem (d.position + off + len)
      (d.advance off) = .ok items d' → d'.position = d.position + off + len := by
    constructor
    · exact fun h items d' hits => h off len d' hh ((runs_advance_iff hd).mpr ⟨items, hits⟩)
    · intro h off' len' d' hh' hruns
      cases hh.1.symm.trans hh'.1
      obtain ⟨items, hits⟩ := (runs_advance_iff hd).mp hruns
      exact h items d' hits
  rw [hpl, stops_congr (decode_of_list hd hh), decode_of_list hd hh, decodeItem_of_list hd hh]
  cases hits : decodeWhile decodeItem (d.position + off + len) (d.advance off) with
  | ok items d' =>
    have hits' := heq.trans hits
    rw [stops_congr (bind_of_ok hits'), bind_of_ok hits, bind_of_ok hits']
    by_cases hend : d'.position = d.position + off + len
    · refine .inl ⟨congrFun (if_neg (not_not.mpr hend)) d', ?_⟩
      rintro _ _ h'
      cases h'
      exact hend
    · exact .inr ⟨stops_of_err (congrFun (if_pos hend) d'), fun h => hend (h items d' rfl)⟩
  | err e d' =>
    exact .inl ⟨(bind_of_err (heq.trans hits)).trans (bind_of_err hits).symm, nofun⟩
  | panic p =>
    exact .inl ⟨(bind_of_panic (heq.trans hits)).trans (bind_of_panic hits).symm, nofun⟩

end

/-- Up to `stop` the two readers are one, and every list on the way ends in its place. -/
def Follows (stop : Nat) (d : Decoder) : Prop :=
  decodeWhile RlpItem.decode stop d = decodeWhile decodeItem stop d ∧
    ∀ d', Visits stop d d' → InPlace d'

/-- `RlpItem::decode` fails before `stop`, and some list on the way is overrun. -/
def Overrun (stop : Nat) (d : Decoder) : Prop :=
  Stops (decodeWhile RlpItem.decode stop) d none ∧ ∃ d', Visits stop d d' ∧ ¬InPlace d'

section
variable {d : Decoder} {stop : Nat} (hd : d.data.length ≤ isizeMax) (hlt : d.position < stop)
include hd hlt

theorem follows_of_stops (hstp : Stops toPayload d why) : Follows stop d := by
  have hok {off len isData} (hh : d.Holds off len isData) : False :=
    not_stops_of_ok (payload_of_le hd hh) hstp
  refine ⟨decodeWhile_decode_eq hlt (decode_of_stops hstp) fun item d₁ h => ?_, ?_⟩
  · rw [decodeItem_eq_payload] at h
    obtain ⟨_, _, hpay, -⟩ := bind_eq_ok.mp h
    exact absurd hstp (not_stops_of_ok hpay)
  · rintro d' (_ | ⟨_, hh, _⟩ | ⟨_, hh, _⟩ | ⟨_, hh, _⟩)
    · exact fun off len _ hh _ => (hok hh).elim
    all_goals exact (hok hh).elim

theorem Follows.string (hh : d.Holds off len true) (h : Follows stop (d.advance (off + len))) :
    Follows stop d := by
  have hitem := decodeItem_of_string hd hh
  refine ⟨decodeWhile_decode_eq hlt (decode_of_string hd hh) fun item d₁ hok => ?_,
    fun d' hvis => ?_⟩
  · cases hitem.symm.trans hok
    exact h.1
  · rcases hvis.of_string hh.1 with rfl | hvis
    · exact fun _ _ _ hh' => nomatch hh.1.symm.trans hh'.1
    · exact h.2 d' hvis

theorem Overrun.string (hh : d.Holds off len true) (h : Overrun stop (d.advance (off + len))) :
    Overrun stop d := by
  obtain ⟨hstp, d', hvis, hbad⟩ := h
  refine ⟨?_, d', .string hlt hh hvis, hbad⟩
  have hitem := (decode_of_string hd hh).trans (decodeItem_of_string hd hh)
  exact (stops_decodeWhile_iff _ forward_decode hlt).mpr (.inr ⟨_, _, hitem, hstp⟩)

theorem Overrun.inside (hh : d.Holds off len false)
    (h : Overrun (d.position + off + len) (d.advance off)) : Overrun stop d := by
  obtain ⟨hstp, d', hvis, hbad⟩ := h
  refine ⟨(stops_decodeWhile_iff _ forward_decode hlt).mpr (.inl ?_), d', .inside hlt hh hvis, hbad⟩
  rw [stops_congr (decode_of_list hd hh)]
  exact stops_bind_iff.mpr (.inl hstp)

theorem Overrun.later (hh : d.Holds off len false) (hdec : RlpItem.decode d = decodeItem d)
    (hruns : Runs (d.position + off + len) (d.advance off) d₁) (h : Overrun stop d₁) :
    Overrun stop d := by
  obtain ⟨hstp, d', hvis, hbad⟩ := h
  obtain ⟨items, hits⟩ := (runs_advance_iff hd).mp hruns
  have hitem := hdec.trans ((decodeItem_of_list hd hh).trans (bind_of_ok hits))
  refine ⟨?_, d', .later hlt hh hruns hvis, hbad⟩
  exact (stops_decodeWhile_iff _ forward_decode hlt).mpr (.inr ⟨_, _, hitem, hstp⟩)

theorem follows_or_overrun_of_list (hh : d.Holds off len false)
    (hins : Follows (d.position + off + len) (d.advance off))
    (hlat : ∀ d₁, Runs (d.position + off + len) (d.advance off) d₁ →
      Follows stop d₁ ∨ Overrun stop d₁) : Follows stop d ∨ Overrun stop d := by
  rcases decode_of_items hd hh hins.1 with ⟨hdec, hpl⟩ | ⟨hstp, hbad⟩
  · by_cases hall : ∀ d₁, Runs (d.position + off + len) (d.advance off) d₁ → Follows stop d₁
    · refine .inl ⟨decodeWhile_decode_eq hlt hdec fun item d₁ h => ?_, fun d' hvis => ?_⟩
      · exact (hall d₁ (exists_runs_of_list hd hh h)).1
      · rcases hvis.of_list hh.1 with rfl | hvis | ⟨d₁, hruns, hvis⟩
        · exact hpl
        · exact hins.2 d' hvis
        · exact (hall d₁ hruns).2 d' hvis
    · obtain ⟨d₁, h⟩ := not_forall.mp hall
      obtain ⟨hruns, h⟩ := Classical.not_imp.mp h
      exact .inr (.later hd hlt hh hdec hruns ((hlat d₁ hruns).resolve_left h))
  · refine .inr ⟨?_, d, .here hlt, hbad⟩
    exact (stops_decodeWhile_iff _ forward_decode hlt).mpr (.inl hstp)

end

/-- `RlpItem::decode` follows `decode_item` up to the first list that is overrun and fails there. -/
theorem decode_cases (hd : d.data.length ≤ isizeMax) : Follows stop d ∨ Overrun stop d := by
  refine scan_induct (P := fun stop d => Follows stop d ∨ Overrun stop d) ?_ ?_ ?_ ?_ stop d hd
  · intro stop d hge
    refine .inl ⟨(decodeWhile_of_le hge).trans (decodeWhile_of_le hge).symm, fun d' hvis => ?_⟩
    exact absurd hvis.position_lt (not_lt.mpr hge)
  · exact fun stop d why hd hlt hstp => .inl (follows_of_stops hd hlt hstp)
  · exact fun stop d off len hd hlt hh ih => ih.imp (.string hd hlt hh) (.string hd hlt hh)
  · intro stop d off len hd hlt hh ih₁ ih₂
    rcases ih₁ with hins | hins
    · exact follows_or_overrun_of_list hd hlt hh hins ih₂
    · exact .inr (hins.inside hd hlt hh)

def Fails (reader : Read α) (d : Decoder) : Prop := ∃ e d', reader d = .err e d'

theorem fails_iff_stops {rd : Read α} : Fails rd d ↔ Stops rd d none := by
  rw [Fails, Stops]
  cases rd d with
  | ok a d' => simp
  | err e d' => simp
  | panic p => simp

/-- The two decoders accept the same items and fail together. -/
def Agree (d : Decoder) : Prop :=
  (∀ item d', decodeItem d = .ok item d' ↔ RlpItem.decode d = .ok item d') ∧
    (Fails decodeItem d ↔ Fails RlpItem.decode d)

theorem decode_item_cases (hd : d.data.length ≤ isizeMax) :
    (RlpItem.decode d = decodeItem d ∧ ∀ d', Visits (d.position + 1) d d' → InPlace d') ∨
      Stops RlpItem.decode d none ∧ ¬∀ d', Visits (d.position + 1) d d' → InPlace d' := by
  rcases decode_cases hd with ⟨heq, hall⟩ | ⟨hstp, d', hvis, hbad⟩
  · refine .inl ⟨?_, hall⟩
    rw [decodeWhile_one forward_decode, decodeWhile_one forward_decodeItem] at heq
    exact bind_singleton_inj heq
  · refine .inr ⟨?_, fun hall => hbad (hall d' hvis)⟩
    rw [stops_congr (decodeWhile_one forward_decode)] at hstp
    exact stops_bind_pure.mp hstp

theorem decodeItem_yields (H : Reads item b) : Yields decodeItem item b := by
  intro d tail hd hrest
  have h := decode_yields H d tail hd hrest
  rcases decode_item_cases hd with ⟨heq, -⟩ | ⟨hstp, -⟩
  · rwa [← heq]
  · exact absurd hstp (not_stops_of_ok h)

/-- The readers agree if one of the headers that `decode_item` comes to is malformed, or if the
items of every list on the way end where its header announces. They disagree otherwise. -/
theorem agree_iff_inPlace (d : Decoder) (hd : d.data.length ≤ isizeMax) :
    Agree d ↔
      (∃ d', Visits (d.position + 1) d d' ∧ Malformed d') ∨
        ∀ d', Visits (d.position + 1) d d' → InPlace d' := by
  have hfai : Fails decodeItem d ↔ ∃ d', Visits (d.position + 1) d d' ∧ Malformed d' := by
    rw [fails_iff_stops, stops_decodeItem_iff hd]
    refine exists_congr fun d' => and_congr_right fun hvis => stops_payload_none_iff ?_
    rwa [hvis.data_eq]
  rw [← hfai]
  rcases decode_item_cases hd with ⟨heq, hall⟩ | ⟨hstp, hall⟩
  · rw [Agree, Fails, Fails, heq]
    exact iff_of_true ⟨fun _ _ => Iff.rfl, Iff.rfl⟩ (.inr hall)
  · rw [or_iff_left hall]
    have hdec := fails_iff_stops.mpr hstp
    constructor
    · exact fun hagr => hagr.2.mpr hdec
    · intro hitem
      refine ⟨fun item d' => ?_, iff_of_true hitem hdec⟩
      obtain ⟨e, d₁, he⟩ := hitem
      obtain ⟨e', d₂, he'⟩ := hdec
      rw [he, he']
      simp

namespace Sample

def nested : Decoder := .new [0xc2, 0xc1, 0x05]

theorem visits_nested (h : Visits 1 nested d') :
    d' = nested ∨ d' = nested.advance 1 ∨ d' = nested.advance 2 := by
  have hlist : readHeader nested.rest = .ok (1, 2, false) := rfl
  have hinn : readHeader (nested.advance 1).rest = .ok (1, 1, false) := rfl
  have hbyte : readHeader (nested.advance 2).rest = .ok (0, 1, true) := rfl
  rcases h.of_list hlist with rfl | h | ⟨d₁, hruns, h⟩
  · exact .inl rfl
  · rcases h.of_list hinn with rfl | h | ⟨d₁, hruns, h⟩
    · exact .inr (.inl rfl)
    · rcases h.of_string hbyte with rfl | h
      · exact .inr (.inr rfl)
      · exact absurd h.position_lt (by decide)
    · exact absurd h.position_lt (not_lt.mpr hruns.le_position)
  · exact absurd (lt_of_le_of_lt hruns.le_position h.position_lt) (by decide)

set_option maxRecDepth 4000 in
theorem agree_nested : Agree nested := by
  refine (agree_iff_inPlace nested (by decide)).mpr (.inr fun d' h => ?_)
  rcases visits_nested h with rfl | rfl | rfl
  all_goals
    intro off len d₁ hh hruns
    cases hh.1
  all_goals
    obtain ⟨items, hits⟩ := (runs_advance_iff (by decide)).mp hruns
    cases hits
    rfl

def overrun : Decoder := .new [0xc1, 0x82, 0x01, 0x02]

set_option maxRecDepth 4000 in
/-- `decode_item` accepts a list whose string reaches beyond it, `RlpItem::decode` does not. -/
theorem not_agree_overrun :
    decodeItem overrun = .ok (.list [.string [0x01, 0x02]]) (overrun.advance 4) ∧
      RlpItem.decode overrun = .err (.decoder (.listLengthMismatch 1 3)) (overrun.advance 4) ∧
      ¬Agree overrun := by
  have hitem : decodeItem overrun = .ok (.list [.string [0x01, 0x02]]) (overrun.advance 4) := by
    rfl
  have hdecode : RlpItem.decode overrun =
      .err (.decoder (.listLengthMismatch 1 3)) (overrun.advance 4) := by
    rfl
  refine ⟨hitem, hdecode, fun hagree => ?_⟩
  have := (hagree.1 _ _).mp hitem
  cases this

end Sample

end EthereumRust.Rlp
