import EthereumRust.Rlp.Visits

/-!
# Overflow in the item readers

The readers add the length that a header announces to the position. They leave with `Ok` or `Err`
as long as no header that `decode_item` comes to announces a payload that ends beyond the range of
`usize`; then every slice lies in the data too.
-/

namespace EthereumRust.Rlp
open Rust Method

/-- The reader does not panic. -/
def Returns (reader : Read α) (d : Decoder) : Prop := ∀ p, reader d ≠ .panic p

section
variable {rd : Read α} {d : Decoder}

theorem returns_iff_not_stops : Returns rd d ↔ ∀ p, ¬Stops rd d (some p) := by
  rw [Returns]
  simp only [Stops]
  cases rd d with
  | ok a d' => simp
  | err e d' => simp
  | panic p => simp [eq_comm]

theorem returns_of_ok (h : rd d = .ok a d') : Returns rd d :=
  returns_iff_not_stops.mpr fun _ => not_stops_of_ok h

theorem returns_of_err (h : rd d = .err e d') : Returns rd d :=
  returns_iff_not_stops.mpr fun _ hp => nomatch (stops_of_err h).unique hp

theorem returns_congr (h : rd d = rd' d') : Returns rd d ↔ Returns rd' d' := by
  rw [Returns, Returns, h]

theorem returns_bind_iff {f : α → Read β} :
    Returns (rd >>= f) d ↔ Returns rd d ∧ ∀ a d', rd d = .ok a d' → Returns (f a) d' := by
  simp only [returns_iff_not_stops, stops_bind_iff, not_or, not_exists, not_and, forall_and]
  exact and_congr_right' ⟨fun h a d' ha p => h p a d' ha, fun h p a d' ha => h a d' ha p⟩

theorem returns_bind_pure {f : α → β} : Returns (rd >>= fun a => pure (f a)) d ↔ Returns rd d :=
  returns_bind_iff.trans (and_iff_left fun _ _ _ => returns_of_ok rfl)

theorem decodeWhile_induct (stop : Nat) (hfwd : Forward rd) {P : Decoder → Prop}
    (hdone : ∀ d, stop ≤ d.position → P d)
    (hturn : ∀ d, d.position < stop → (∀ a d₁, rd d = .ok a d₁ → P d₁) → P d)
    (d : Decoder) : P d := by
  induction hn : stop - d.position using Nat.strong_induction_on generalizing d with
  | h n ih =>
    rcases lt_or_ge d.position stop with hlt | hge
    · refine hturn d hlt fun a d₁ ha => ih _ ?_ d₁ rfl
      have hpos := (hfwd ha).2
      omega
    · exact hdone d hge

theorem returns_decodeWhile_iff (rd : Read α) (hfwd : Forward rd) (h : d.position < stop) :
    Returns (decodeWhile rd stop) d ↔
      Returns rd d ∧ ∀ a d₁, rd d = .ok a d₁ → Returns (decodeWhile rd stop) d₁ := by
  rw [Returns, decodeWhile_of_lt hfwd h]
  refine returns_bind_iff.trans ?_
  simp only [returns_bind_pure]

/-- A loop returns if its reader moves forward and returns wherever the loop calls it. -/
theorem returns_decodeWhile (hfwd : Forward rd) {P : Decoder → Prop}
    (hret : ∀ d, P d → d.position < stop → Returns rd d)
    (hnext : ∀ d a d₁, P d → d.position < stop → rd d = .ok a d₁ → P d₁) (hd : P d) :
    Returns (decodeWhile rd stop) d := by
  induction d using decodeWhile_induct stop hfwd with
  | hdone d hge => exact returns_of_ok (decodeWhile_of_le hge)
  | hturn d hlt ih =>
    rw [returns_decodeWhile_iff rd hfwd hlt]
    exact ⟨hret d hd hlt, fun a d₁ ha => ih a d₁ ha (hnext d a d₁ hd hlt ha)⟩

end

theorem takeBytes_of_payload
    (hd : d.data.length ≤ isizeMax) (h : toPayload d = .ok (stop, len, isData) d₁) :
    ∃ bytes, takeBytes len d₁ = .ok bytes (d₁.advance len) := by
  obtain ⟨off, -, rfl, rfl, hle⟩ := payload_inv h
  exact ⟨_, takeBytes_of hle hd⟩

theorem returns_decodeItem_iff (hd : d.data.length ≤ isizeMax) :
    Returns decodeItem d ↔ ∀ d', Visits (d.position + 1) d d' → ¬Overflows d' := by
  simp only [returns_iff_not_stops, stops_decodeItem_iff hd, not_exists, not_and]
  rw [forall_comm]
  refine forall_congr' fun d' => ?_
  rw [forall_comm]
  refine forall_congr' fun hvis => ?_
  rw [← not_exists, stops_payload_some_iff (by rwa [hvis.data_eq])]

section
variable {d : Decoder} (h : Returns decodeItem d)
include h

theorem returns_payload : Returns toPayload d := by
  rw [returns_congr decodeItem_eq_payload] at h
  exact (returns_bind_iff.mp h).1

theorem returns_items (hpay : toPayload d = .ok (stop, len, false) d₁) :
    Returns (decodeWhile decodeItem stop) d₁ := by
  rw [returns_congr decodeItem_eq_payload, returns_congr (bind_of_ok hpay)] at h
  exact returns_bind_pure.mp h

end

theorem returns_decodeBytes (hd : d.data.length ≤ isizeMax) (h : Returns toPayload d) :
    Returns decodeBytes d := by
  refine returns_bind_iff.mpr ⟨(returns_bind_iff.mp h).1, fun header d' hhd => ?_⟩
  obtain ⟨off, len, isData⟩ := header
  cases isData with
  | false => exact returns_of_err rfl
  | true =>
    have heq := (bind_of_ok hhd).symm.trans (decodeBytes_of_header hhd)
    refine (returns_congr heq).mpr (returns_bind_iff.mpr ⟨h, fun a d₁ hpay => ?_⟩)
    obtain ⟨bytes, hbs⟩ := takeBytes_of_payload hd hpay
    exact returns_of_ok hbs

theorem returns_decodeListWith {rd : Read α} (h : Returns toPayload d)
    (hloop : ∀ stop len d₁, toPayload d = .ok (stop, len, false) d₁ →
      Returns (decodeWhile rd stop) d₁) : Returns (decodeListWith rd) d := by
  refine returns_bind_iff.mpr ⟨(returns_bind_iff.mp h).1, fun header d' hhd => ?_⟩
  obtain ⟨off, len, isData⟩ := header
  cases isData with
  | true => exact returns_of_err rfl
  | false =>
    have heq := (bind_of_ok hhd).symm.trans (decodeListWith_of_header rd hhd)
    refine (returns_congr heq).mpr (returns_bind_iff.mpr ⟨h, fun a d₁ hpay => ?_⟩)
    obtain ⟨stop, len', isData'⟩ := a
    obtain rfl := isData_of_payload hhd hpay
    refine returns_bind_iff.mpr ⟨hloop stop len' d₁ hpay, fun items d₂ _ => ?_⟩
    rw [Returns, bind_read]
    split
    · exact returns_of_err rfl
    · exact returns_of_ok rfl

theorem returns_decode (hd : d.data.length ≤ isizeMax) (h : Returns decodeItem d) :
    Returns RlpItem.decode d := by
  rcases decode_item_cases hd with ⟨heq, -⟩ | ⟨hstp, -⟩
  · exact (returns_congr heq).mpr h
  · exact returns_iff_not_stops.mpr fun _ hp => nomatch hstp.unique hp

/-- A reader of one item: it returns where `decode_item` does, and ends where `decode_item` ends. -/
structure ItemReader (reader : Read α) : Prop where
  forward : Forward reader
  returns {d : Decoder} : d.data.length ≤ isizeMax → Returns decodeItem d → Returns reader d
  follows {d d' : Decoder} {a : α} : d.data.length ≤ isizeMax → reader d = .ok a d' →
    ∃ item, decodeItem d = .ok item d'

namespace ItemReader

theorem decode : ItemReader RlpItem.decode where
  forward := forward_decode
  returns := returns_decode
  follows {d d' item} hd h := by
    rcases decode_item_cases hd with ⟨heq, -⟩ | ⟨hstp, -⟩
    · exact ⟨item, heq.symm.trans h⟩
    · exact absurd hstp (not_stops_of_ok h)

theorem decodeBytes : ItemReader decodeBytes where
  forward h := by
    obtain ⟨b, ⟨-, rfl⟩, H⟩ := decodeBytes_inv h
    exact ⟨rfl, Nat.lt_add_of_pos_right H.length_pos⟩
  returns hd h := returns_decodeBytes hd (returns_payload h)
  follows {d d' bytes} _ h := by
    obtain ⟨⟨off, len, isData⟩, d₁, hhd, hbs⟩ := bind_eq_ok.mp h
    cases isData with
    | false => exact absurd hbs fail_ne_ok
    | true =>
      rw [decodeBytes_of_header hhd] at h
      obtain ⟨⟨stop, len', isData'⟩, d₂, hpay, h⟩ := bind_eq_ok.mp h
      obtain rfl := isData_of_payload hhd hpay
      refine ⟨.string bytes, ?_⟩
      rw [decodeItem_eq_payload, bind_of_ok hpay]
      exact bind_of_ok h

variable {rd : Read α} (hrd : ItemReader rd)
include hrd

theorem decodeWhile_follows (d : Decoder) (hd : d.data.length ≤ isizeMax)
    (h : decodeWhile rd stop d = .ok as d') :
    ∃ items, decodeWhile decodeItem stop d = .ok items d' := by
  induction d using decodeWhile_induct stop hrd.forward generalizing as with
  | hdone d hge =>
    rw [decodeWhile_of_le hge] at h ⊢
    cases h
    exact ⟨[], rfl⟩
  | hturn d hlt ih =>
    rw [decodeWhile_of_lt hrd.forward hlt] at h
    obtain ⟨a, d₁, ha, h⟩ := bind_eq_ok.mp h
    obtain ⟨as, d₂, has, h⟩ := bind_eq_ok.mp h
    cases h
    obtain ⟨item, hitem⟩ := hrd.follows hd ha
    obtain ⟨items, hits⟩ := ih a d₁ ha (by rwa [(hrd.forward ha).1]) has
    exact ⟨item :: items, decodeWhile_cons hlt hitem hits⟩

theorem decodeListWith : ItemReader (decodeListWith rd) where
  forward := decodeListWith_forward hrd.forward
  returns {d} hd h := by
    apply returns_decodeListWith (returns_payload h)
    intro stop len d₁ hpay
    -- the loop of `decode_item` returns wherever this one comes to
    refine returns_decodeWhile hrd.forward (P := fun d =>
      d.data.length ≤ isizeMax ∧ Returns (decodeWhile decodeItem stop) d) ?_ ?_ ⟨?_, ?_⟩
    · intro d ⟨hd, hloop⟩ hlt
      exact hrd.returns hd ((returns_decodeWhile_iff _ forward_decodeItem hlt).mp hloop).1
    · intro d a d₁ ⟨hd, hloop⟩ hlt ha
      obtain ⟨item, hitem⟩ := hrd.follows hd ha
      refine ⟨by rwa [(hrd.forward ha).1], ?_⟩
      exact ((returns_decodeWhile_iff _ forward_decodeItem hlt).mp hloop).2 item d₁ hitem
    · obtain ⟨off, -, rfl, -⟩ := payload_inv hpay
      exact hd
    · exact returns_items h hpay
  follows {d d' as} hd h := by
    obtain ⟨⟨off, len, isData⟩, d₁, hhd, hits⟩ := bind_eq_ok.mp h
    cases isData with
    | true => exact absurd hits fail_ne_ok
    | false =>
      rw [decodeListWith_of_header _ hhd] at h
      obtain ⟨⟨stop, len', isData'⟩, d₂, hpay, h⟩ := bind_eq_ok.mp h
      obtain rfl := isData_of_payload hhd hpay
      obtain ⟨as', d₃, has, h⟩ := bind_eq_ok.mp h
      rw [bind_read] at h
      split at h
      · exact absurd h fail_ne_ok
      · cases h
        have hd₂ : d₂.data.length ≤ isizeMax := by
          obtain ⟨off', -, rfl, -⟩ := payload_inv hpay
          exact hd
        obtain ⟨items, hits⟩ := hrd.decodeWhile_follows d₂ hd₂ has
        refine ⟨.list items, ?_⟩
        rw [decodeItem_eq_payload, bind_of_ok hpay]
        exact bind_of_ok hits

end ItemReader

/-- The readers return at a position of a slice if and only if no header that `decode_item` comes to
from there announces an end beyond the range of `usize`. For `decode_list` this holds for every type
whose own reader moves forward and always returns, or reads one item. -/
theorem returns_iff (d : Decoder) (hd : d.data.length ≤ isizeMax) :
    (Returns decodeBytes d ∧ Returns decodeItem d ∧
      ∀ (α : Type) [Decode α],
        (Forward (Decode.decode : Read α) ∧ ∀ d', Returns (Decode.decode : Read α) d') ∨
          ItemReader (Decode.decode : Read α) → Returns (decodeList α) d) ↔
      ∀ d', Visits (d.position + 1) d d' → ¬Overflows d' := by
  rw [← returns_decodeItem_iff hd]
  constructor
  · exact fun h => h.2.1
  · intro h
    have hpay := returns_payload h
    refine ⟨returns_decodeBytes hd hpay, h, ?_⟩
    rintro α _ (⟨hfwd, hret⟩ | hα)
    · refine returns_decodeListWith hpay fun stop _ d₁ _ => ?_
      exact returns_decodeWhile hfwd (P := fun _ => True) (fun d _ _ => hret d)
        (fun _ _ _ _ _ _ => trivial) trivial
    · exact hα.decodeListWith.returns hd h

namespace Sample

set_option maxRecDepth 4000 in
theorem returns_nested :
    Returns decodeBytes nested ∧ Returns decodeItem nested ∧
      Returns (decodeList RlpItem) nested ∧ Returns (decodeList Bytes) nested := by
  have h := (returns_iff nested (by decide)).mpr fun d' hvis ⟨off, len, isData, hh, hge⟩ => by
    rcases visits_nested hvis with rfl | rfl | rfl
    all_goals
      cases hh
      exact absurd hge (by decide)
  exact ⟨h.1, h.2.1, h.2.2 RlpItem (.inr .decode), h.2.2 Bytes (.inr .decodeBytes)⟩

def endless : Decoder := .new (0xbf :: List.replicate 8 0xff)

set_option maxRecDepth 4000 in
/-- A header that announces `2 ^ 64 - 1` bytes. -/
theorem endless_overflows :
    decodeBytes endless = .panic .arithmetic ∧ decodeItem endless = .panic .arithmetic ∧
      Overflows endless :=
  ⟨by decide +kernel, by rfl, 9, 2 ^ 64 - 1, true, by decide +kernel, by decide +kernel⟩

end Sample

end EthereumRust.Rlp
