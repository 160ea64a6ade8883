import EthereumRust.Rlp.Header

/-!
# The two item readers

`Reads item b` says that `b` is a byte string that stands for `item`, with any header that the
decoder accepts. `RlpItem::decode` accepts exactly these strings; `decode_item`, which does not
compare the end of a list with the end of its last item, accepts them too.
-/

namespace EthereumRust.Rlp

open Rust Method List Decoder

mutual

def Reads : RlpItem → Bytes → Prop
  | .string s, b => ∃ offset, readHeader b = .ok (offset, s.length, true) ∧ b.drop offset = s
  | .list items, b => ∃ offset, readHeader b = .ok (offset, b.length - offset, false) ∧
      ReadsAll items (b.drop offset)

def ReadsAll : List RlpItem → Bytes → Prop
  | [], b => b = []
  | item :: items, b => ∃ b₁ b₂, b = b₁ ++ b₂ ∧ Reads item b₁ ∧ ReadsAll items b₂

end

variable {item : RlpItem}

theorem length_pos_of_header {header : Nat × Nat × Bool} (hh : readHeader b = .ok header) :
    0 < b.length := by
  cases b with
  | nil => cases hh
  | cons => exact Nat.succ_pos _

theorem Reads.length_pos (H : Reads item b) : 0 < b.length := by
  cases item with
  | string s =>
    obtain ⟨off, hh, -⟩ := H
    exact length_pos_of_header hh
  | list items =>
    obtain ⟨off, hh, -⟩ := H
    exact length_pos_of_header hh

theorem Reads.eq_string (H : Reads item b) (E : Reads (.string s) e)
    (heq : b ++ X = e ++ Y) : item = .string s ∧ b = e := by
  obtain ⟨off, hh, hs⟩ := E
  have hfro := readHeader_append hh Y
  rw [← heq] at hfro
  cases item with
  | string s' =>
    obtain ⟨off', hh', hs'⟩ := H
    rw [readHeader_append hh' X] at hfro
    simp only [Except.ok.injEq, Prod.mk.injEq] at hfro
    obtain ⟨rfl, hlen⟩ := hfro
    have hb := (readHeader_bounds hh').1
    have he := (readHeader_bounds hh).1
    rw [← hs, ← hs', length_drop, length_drop] at hlen
    obtain ⟨rfl, -⟩ := append_inj heq (by omega)
    exact ⟨by rw [← hs, hs'], rfl⟩
  | list items =>
    obtain ⟨off', hh', -⟩ := H
    rw [readHeader_append hh' X] at hfro
    simp at hfro

/-- Where `b` stands in data that fits a slice, `reader` returns `a` and stops behind `b`. -/
def Yields (reader : Read α) (a : α) (b : Bytes) : Prop :=
  ∀ d tail, d.data.length ≤ isizeMax → d.rest = b ++ tail → reader d = .ok a (d.advance b.length)

section
variable {d : Decoder} {b tail : Bytes} {off len : Nat}

theorem decodeHeader_yields {header : Nat × Nat × Bool} (hh : readHeader b = .ok header)
    (hd : d.data.length ≤ isizeMax) (hrest : d.rest = b ++ tail) :
    decodeHeader d = .ok header d := by
  rw [decodeHeader_of hd, hrest, readHeader_append hh]
  rfl

theorem isList_yields (hh : readHeader b = .ok (off, len, isData))
    (hrest : d.rest = b ++ tail) : isList d = .ok (!isData) d := by
  cases b with
  | nil => cases hh
  | cons byte b =>
    rw [isList, bind_read]
    dsimp only [id]
    rw [getElem?_of_rest hrest]
    change Outcome.ok (decide (0xc0 ≤ byte.toNat)) d = _
    have := readHeader_isData hh
    cases isData <;> simp_all

theorem position_add_le (hrest : d.rest = b ++ tail) (hpos : 0 < b.length) :
    d.position + b.length ≤ d.data.length :=
  Decoder.position_add_le (by rw [hrest, length_append]; exact Nat.le_add_right _ _) hpos

theorem skip_yields (hd : d.data.length ≤ isizeMax) (hrest : d.rest = b ++ tail)
    (hpos : 0 < b.length) (hn : n ≤ b.length) : skip n d = .ok () (d.advance n) := by
  have hle := position_add_le hrest hpos
  have hbd := isizeMax_lt_wordBound
  exact skip_of (by omega)

theorem stringPayload_yields {s : Bytes} (hh : readHeader b = .ok (off, s.length, true))
    (hs : b.drop off = s) (hd : d.data.length ≤ isizeMax) (hrest : d.rest = b ++ tail) :
    skip off d = .ok () (d.advance off) ∧
      payloadEnd s.length (d.advance off) =
        .ok ((d.advance off).position + s.length) (d.advance off) ∧
      takeBytes s.length (d.advance off) = .ok s (d.advance b.length) := by
  have hbou := readHeader_bounds hh
  have hlen : off + s.length = b.length := by
    rw [← hs, length_drop]
    omega
  have hle := position_add_le hrest (by omega)
  have hin : (d.advance off).position + s.length ≤ (d.advance off).data.length := by
    rw [advance_position, advance_data]
    omega
  refine ⟨skip_yields hd hrest (by omega) hbou.1, payloadEnd_of hin hd, ?_⟩
  rw [takeBytes_of hin hd, rest_advance, hrest, drop_append_of_le_length hbou.1, hs,
    take_left, advance_advance, hlen]

theorem decodeBytes_yields (hh : readHeader b = .ok (off, s.length, true))
    (hs : b.drop off = s) : Yields decodeBytes s b := by
  intro d tail hd hrest
  obtain ⟨hskip, hend, htake⟩ := stringPayload_yields hh hs hd hrest
  refine (bind_of_ok (decodeHeader_yields hh hd hrest)).trans ?_
  refine (bind_of_ok hskip).trans ?_
  exact (bind_of_ok hend).trans htake

end

section
variable {rd : Read α} {d : Decoder} {stop n : Nat}

theorem decodeWhileF_of_le (h : stop ≤ d.position) : decodeWhileF rd stop n d = .ok [] d := by
  cases n with
  | zero => exact if_neg (not_lt.mpr h)
  | succ n => exact congrFun (if_neg (not_lt.mpr h)) d

theorem decodeWhileF_of_lt (h : d.position < stop) :
    decodeWhileF rd stop (n + 1) d =
      (do let first ← rd
          let items ← decodeWhileF rd stop n
          return first :: items : Read (List α)) d := by
  exact congrFun (if_pos h) d

theorem decodeWhileF_induct {R : Decoder → List α → Decoder → Prop} (hnil : ∀ d, R d [] d)
    (hcons : ∀ {d d₁ d₂ item items}, rd d = .ok item d₁ → R d₁ items d₂ → R d (item :: items) d₂)
    (h : decodeWhileF rd stop n d = .ok items d') : R d items d' := by
  induction n generalizing d items with
  | zero =>
    simp only [decodeWhileF] at h
    split_ifs at h
    cases h
    exact hnil _
  | succ n ih =>
    rcases lt_or_ge d.position stop with hlt | hge
    · rw [decodeWhileF_of_lt hlt] at h
      obtain ⟨item, d₁, hitem, h⟩ := bind_eq_ok.mp h
      obtain ⟨items, d₂, hits, h⟩ := bind_eq_ok.mp h
      cases h
      exact hcons hitem (ih hits)
    · rw [decodeWhileF_of_le hge] at h
      cases h
      exact hnil _

end

variable {tail : Bytes}

theorem decodeWhileF_yields (hrd : ∀ item b, Reads item b → b.length ≤ m → Yields rd item b)
    {items : List RlpItem} {b : Bytes} (H : ReadsAll items b) (hm : b.length ≤ m)
    (hn : b.length ≤ n) (hd : d.data.length ≤ isizeMax) (hrest : d.rest = b ++ tail) :
    decodeWhileF rd (d.position + b.length) n d = .ok items (d.advance b.length) := by
  induction items generalizing b n d with
  | nil =>
    subst H
    exact decodeWhileF_of_le (le_refl _)
  | cons item items ih =>
    obtain ⟨b₁, b₂, rfl, H₁, H₂⟩ := H
    have hpos := H₁.length_pos
    rw [length_append] at hm hn ⊢
    obtain ⟨n, rfl⟩ := Nat.exists_eq_succ_of_ne_zero (show n ≠ 0 by omega)
    rw [append_assoc] at hrest
    rw [decodeWhileF_of_lt (by omega)]
    refine (bind_of_ok (hrd item b₁ H₁ (by omega) d _ hd hrest)).trans ?_
    have hrest' : (d.advance b₁.length).rest = b₂ ++ tail := by
      rw [rest_advance, hrest, drop_left]
    have hnext := ih (d := d.advance b₁.length) H₂ (by omega) (show b₂.length ≤ n by omega) hd
      hrest'
    rw [advance_position, add_assoc, advance_advance] at hnext
    exact bind_of_ok hnext

theorem listPayload_yields {off : Nat}
    (hh : readHeader b = .ok (off, b.length - off, false)) (hd : d.data.length ≤ isizeMax)
    (hrest : d.rest = b ++ tail) : skip off d = .ok () (d.advance off) ∧
      payloadEnd (b.length - off) (d.advance off) =
        .ok ((d.advance off).position + (b.drop off).length) (d.advance off) ∧
      (d.advance off).rest = b.drop off ++ tail ∧
      (d.advance off).advance (b.drop off).length = d.advance b.length := by
  obtain ⟨hle, -, hpos⟩ := readHeader_bounds hh
  have hpos := hpos rfl
  have hin := position_add_le hrest (by omega)
  rw [length_drop]
  refine ⟨skip_yields hd hrest (by omega) hle, payloadEnd_of ?_ hd, ?_, ?_⟩
  · rw [advance_position, advance_data]
    omega
  · rw [rest_advance, hrest, drop_append_of_le_length hle]
  · rw [advance_advance, Nat.add_sub_cancel' hle]

variable {fuel : Nat}

theorem listItems_yields (hrd : ∀ item b, Reads item b → b.length ≤ fuel → Yields rd item b)
    {d : Decoder} (hh : readHeader b = .ok (off, b.length - off, false))
    (H : ReadsAll items (b.drop off)) (hfuel : b.length ≤ fuel + 1)
    (hd : d.data.length ≤ isizeMax) (hrest : d.rest = b ++ tail) :
    decodeWhile rd ((d.advance off).position + (b.drop off).length) (d.advance off) =
      .ok items (d.advance b.length) := by
  obtain ⟨-, -, hrest', hadv⟩ := listPayload_yields hh hd hrest
  have hoff := (readHeader_bounds hh).2.2 rfl
  rw [← hadv]
  apply decodeWhileF_yields (d := d.advance off) hrd H _ _ hd hrest'
  · rw [length_drop]
    omega
  · exact Nat.le_add_left _ _

theorem nested_decode_yields (H : Reads item b) (hfuel : b.length ≤ fuel) :
    Yields (nested RlpItem.decodeWith fuel) item b := by
  induction fuel generalizing item b with
  | zero => exact absurd H.length_pos (not_lt.mpr hfuel)
  | succ fuel ih =>
    intro d tail hd hrest
    cases item with
    | string s =>
      obtain ⟨off, hh, hs⟩ := H
      refine (bind_of_ok (isList_yields hh hrest)).trans ?_
      exact bind_of_ok (decodeBytes_yields hh hs d tail hd hrest)
    | list items =>
      obtain ⟨off, hh, H⟩ := H
      obtain ⟨hskip, hend, -, hadv⟩ := listPayload_yields hh hd hrest
      have hits := listItems_yields (fun _ _ => ih) hh H hfuel hd hrest
      have hlist : decodeListWith (nested RlpItem.decodeWith fuel) d =
          .ok items (d.advance b.length) := by
        refine (bind_of_ok (decodeHeader_yields hh hd hrest)).trans ?_
        refine (bind_of_ok hskip).trans ?_
        refine (bind_of_ok hend).trans ?_
        refine (bind_of_ok hits).trans ?_
        rw [← hadv]
        exact congrFun (if_neg (by simp [add_assoc])) _
      refine (bind_of_ok (isList_yields hh hrest)).trans ?_
      exact bind_of_ok hlist

def Took (d d' : Decoder) (b : Bytes) : Prop := b <+: d.rest ∧ d' = d.advance b.length

section
variable {d d' d'' : Decoder} {b b' : Bytes} {off len : Nat}

theorem Took.nil (d : Decoder) : Took d d [] := ⟨ nil_prefix, rfl⟩

theorem Took.trans (h : Took d d' b) (h' : Took d' d'' b') : Took d d'' (b ++ b') := by
  obtain ⟨⟨tail, hb⟩, rfl⟩ := h
  obtain ⟨⟨tail', hb'⟩, rfl⟩ := h'
  rw [rest_advance, ← hb, drop_left] at hb'
  refine ⟨⟨tail', ?_⟩, ?_⟩
  · rw [← hb, ← hb', append_assoc]
  · rw [advance_advance, length_append]

variable {n : Nat}

theorem took_take (h : n ≤ d.rest.length) : Took d (d.advance n) (d.rest.take n) :=
  ⟨ take_prefix _ _, by rw [length_take_of_le h]⟩

theorem le_length_rest (hpos : 0 < off + len)
    (hle : (d.advance off).position + len ≤ (d.advance off).data.length) :
    off + len ≤ d.rest.length := by
  rw [advance_position, advance_data] at hle
  rw [length_rest]
  omega

theorem reads_string (hh : readHeader b = .ok (off, len, true)) (hle : off + len ≤ b.length) :
    Reads (.string ((b.drop off).take len)) (b.take (off + len)) := by
  have hs : ((b.drop off).take len).length = len := by
    rw [length_take, length_drop]
    omega
  rw [Reads, hs]
  refine ⟨off, readHeader_take hh (le_refl _), ?_⟩
  rw [drop_take, Nat.add_sub_cancel_left]

theorem decodeBytes_inv (h : decodeBytes d = .ok s d') :
    ∃ b, Took d d' b ∧ Reads (.string s) b := by
  obtain ⟨⟨off, len, isData⟩, d, hhd, h⟩ := bind_eq_ok.mp h
  obtain ⟨hh, rfl⟩ := decodeHeader_inv hhd
  cases isData with
  | false => exact absurd h fail_ne_ok
  | true =>
    obtain ⟨_, _, hskip, h⟩ := bind_eq_ok.mp h
    obtain ⟨_, _, hend, h⟩ := bind_eq_ok.mp h
    obtain rfl := skip_inv hskip
    obtain ⟨rfl, -, hle⟩ := payloadEnd_inv hend
    obtain ⟨rfl, rfl⟩ := takeBytes_inv h
    have hle := le_length_rest (readHeader_bounds hh).2.1 hle
    rw [advance_advance, rest_advance]
    exact ⟨_, took_take hle, reads_string hh hle⟩

variable {items : List RlpItem} {stop : Nat}

theorem decodeWhileF_inv (hrd : ∀ {d item d'}, rd d = .ok item d' → ∃ b, Took d d' b ∧ Reads item b)
    (h : decodeWhileF rd stop n d = .ok items d') : ∃ b, Took d d' b ∧ ReadsAll items b := by
  refine decodeWhileF_induct (R := fun d items d' => ∃ b, Took d d' b ∧ ReadsAll items b) ?_ ?_ h
  · exact fun d => ⟨[], .nil d, by rw [ReadsAll]⟩
  · intro d d₁ d₂ item items hitem hits
    obtain ⟨b₁, T₁, H₁⟩ := hrd hitem
    obtain ⟨b₂, T₂, H₂⟩ := hits
    refine ⟨b₁ ++ b₂, T₁.trans T₂, ?_⟩
    exact ⟨b₁, b₂, rfl, H₁, H₂⟩

theorem isList_inv (h : isList d = .ok list d') : d' = d := by
  obtain ⟨_, d, hread, hlist⟩ := bind_eq_ok.mp h
  obtain ⟨rfl, rfl⟩ := read_eq_ok.mp hread
  cases hb : d.data[d.position]? with
  | none =>
    rw [hb] at hlist
    exact absurd hlist fail_ne_ok
  | some byte =>
    rw [hb] at hlist
    exact (pure_eq_ok.mp hlist).2

theorem reads_list (hh : readHeader d.rest = .ok (off, len, false))
    (T : Took (d.advance off) d' b) (H : ReadsAll items b) (hlen : b.length = len) :
    Took d d' (d.rest.take off ++ b) ∧ Reads (.list items) (d.rest.take off ++ b) := by
  have hle := (readHeader_bounds hh).1
  have hT := (took_take hle).trans T
  refine ⟨hT, ?_⟩
  have hoff : (d.rest.take off).length = off := length_take_of_le hle
  have heq : d.rest.take off ++ b = d.rest.take (off + len) := by
    rw [prefix_iff_eq_take.mp hT.1, length_append, hoff, hlen]
  have hhd := readHeader_take hh (le_refl _)
  rw [← heq] at hhd
  rw [Reads]
  refine ⟨off, ?_, ?_⟩
  · rw [hhd, length_append, hoff, hlen, Nat.add_sub_cancel_left]
  · rwa [drop_left' hoff]

theorem decodeListWith_ok {items : List α} (h : decodeListWith rd d = .ok items d') :
    ∃ off len, readHeader d.rest = .ok (off, len, false) ∧
      decodeWhile rd (d.position + off + len) (d.advance off) = .ok items d' ∧
      d'.position = d.position + off + len := by
  rw [decodeListWith, bind_eq_ok] at h
  obtain ⟨⟨off, len, isData⟩, d, hhd, h⟩ := h
  obtain ⟨hh, rfl⟩ := decodeHeader_inv hhd
  cases isData with
  | true => exact absurd h fail_ne_ok
  | false =>
    obtain ⟨_, _, hskip, h⟩ := bind_eq_ok.mp h
    obtain ⟨_, _, hend, h⟩ := bind_eq_ok.mp h
    obtain ⟨items, d₁, hwhi, h⟩ := bind_eq_ok.mp h
    obtain ⟨_, d₂, hpos, h⟩ := bind_eq_ok.mp h
    obtain rfl := skip_inv hskip
    obtain ⟨rfl, rfl, -⟩ := payloadEnd_inv hend
    obtain ⟨rfl, rfl⟩ := read_eq_ok.mp hpos
    split_ifs at h with hne
    · exact absurd h fail_ne_ok
    · obtain ⟨rfl, rfl⟩ := pure_eq_ok.mp h
      exact ⟨off, len, hh, hwhi, not_not.mp hne⟩

theorem decodeListWith_inv
    (hrd : ∀ {d item d'}, rd d = .ok item d' → ∃ b, Took d d' b ∧ Reads item b)
    (h : decodeListWith rd d = .ok items d') : ∃ b, Took d d' b ∧ Reads (.list items) b := by
  obtain ⟨off, len, hh, hwhi, hend⟩ := decodeListWith_ok h
  obtain ⟨b, T, H⟩ := decodeWhileF_inv hrd hwhi
  refine ⟨_, reads_list hh T H ?_⟩
  have hpos := congrArg position T.2
  rw [advance_position, advance_position] at hpos
  omega

theorem nested_decode_inv (h : nested RlpItem.decodeWith fuel d = .ok item d') :
    ∃ b, Took d d' b ∧ Reads item b := by
  induction fuel generalizing d item d' with
  | zero => exact absurd h fail_ne_ok
  | succ fuel ih =>
    obtain ⟨list, d₁, hlist, h⟩ := bind_eq_ok.mp h
    obtain rfl := isList_inv hlist
    cases list with
    | false =>
      obtain ⟨s, _, hs, h⟩ := bind_eq_ok.mp h
      cases h
      exact decodeBytes_inv hs
    | true =>
      obtain ⟨items, _, hits, h⟩ := bind_eq_ok.mp h
      cases h
      exact decodeListWith_inv ih hits

/-- A reader that succeeds has moved on. -/
def Forward (reader : Read α) : Prop :=
  ∀ {d a d'}, reader d = .ok a d' → d'.data = d.data ∧ d.position < d'.position

def AgreeFrom (reader reader' : Read α) (d : Decoder) : Prop :=
  ∀ t : Decoder, t.data = d.data → d.position ≤ t.position → reader t = reader' t

theorem decodeWhileF_congr {rd rd' : Read α} (hfwd : Forward rd) (hrd : AgreeFrom rd rd' d)
    (hn : stop - d.position ≤ n) (hn' : stop - d.position ≤ n') :
    decodeWhileF rd stop n d = decodeWhileF rd' stop n' d := by
  induction n generalizing n' d with
  | zero => rw [decodeWhileF_of_le (by omega), decodeWhileF_of_le (by omega)]
  | succ n ih =>
    rcases lt_or_ge d.position stop with hlt | hge
    · obtain ⟨n', rfl⟩ := Nat.exists_eq_succ_of_ne_zero (show n' ≠ 0 by omega)
      rw [decodeWhileF_of_lt hlt, decodeWhileF_of_lt hlt]
      apply bind_congr (hrd d rfl (le_refl _))
      intro a d' h
      obtain ⟨hdata, hpos⟩ := hfwd h
      refine bind_congr (ih (fun t ht hle => hrd t (ht.trans hdata) ?_) ?_ ?_) fun _ _ _ => rfl
      all_goals omega
    · rw [decodeWhileF_of_le hge, decodeWhileF_of_le hge]

theorem decodeWhile_congr {rd rd' : Read α} (hfwd : Forward rd)
    (hrd : AgreeFrom rd rd' (d.advance 1)) (hoff : 0 < off) :
    decodeWhile rd stop (d.advance off) = decodeWhile rd' stop (d.advance off) := by
  apply decodeWhileF_congr hfwd _ (Nat.sub_le _ _) (Nat.sub_le _ _)
  intro t ht hpos
  exact hrd t ht (le_trans (Nat.add_le_add_left hoff _) hpos)

theorem decodeWhileF_forward {rd : Read α} (hfwd : Forward rd) {items : List α}
    (h : decodeWhileF rd stop n d = .ok items d') :
    d'.data = d.data ∧ d.position ≤ d'.position := by
  refine decodeWhileF_induct
    (R := fun d _ d' => d'.data = d.data ∧ d.position ≤ d'.position) ?_ ?_ h
  · exact fun d => ⟨rfl, le_refl _⟩
  · intro d d₁ d₂ item items hitem hits
    obtain ⟨hdata, hpos⟩ := hfwd hitem
    exact ⟨hits.1.trans hdata, le_of_lt (lt_of_lt_of_le hpos hits.2)⟩

/-- What the body of a recursive reader must do for the fuel to suffice: move forward, call itself
only behind the position, and stop at the end of the data. -/
structure Progresses (body : Read α → Read α) : Prop where
  forward {reader} : Forward reader → Forward (body reader)
  congr {reader reader' d} : Forward reader → AgreeFrom reader reader' (d.advance 1) →
    body reader d = body reader' d
  at_end {reader d} : d.rest = [] → body reader d = .err eof d

theorem rest_eq_nil (h : d.data.length - d.position = 0) : d.rest = [] :=
  length_eq_zero_iff.mp ((length_rest).trans h)

section
variable {body : Read α → Read α}

section
variable (hbody : Progresses body)
include hbody

theorem Progresses.nested_forward : Forward (nested body n) := by
  induction n with
  | zero => exact fun h => absurd h fail_ne_ok
  | succ n ih => exact hbody.forward ih

theorem Progresses.nested_at_end (h : d.data.length - d.position = 0) :
    nested body n d = .err eof d := by
  cases n with
  | zero => rfl
  | succ n => exact hbody.at_end (rest_eq_nil h)

theorem Progresses.nested_congr {n n' : Nat} (hn : d.data.length - d.position ≤ n)
    (hn' : d.data.length - d.position ≤ n') : nested body n d = nested body n' d := by
  induction n generalizing n' d with
  | zero => rw [hbody.nested_at_end (by omega), hbody.nested_at_end (by omega)]
  | succ n ih =>
    cases n' with
    | zero => rw [hbody.nested_at_end (by omega), hbody.nested_at_end (by omega)]
    | succ n' =>
      apply hbody.congr hbody.nested_forward
      intro t ht hpos
      rw [advance_data] at ht
      rw [advance_position] at hpos
      rw [← ht] at hn hn'
      exact ih (by omega) (by omega)

theorem Progresses.recursive_eq : recursive body d = body (recursive body) d := by
  rw [recursive, hbody.nested_congr (le_refl _) (Nat.le_succ _)]
  apply hbody.congr hbody.nested_forward
  intro t ht hpos
  rw [advance_data] at ht
  rw [advance_position] at hpos
  exact hbody.nested_congr (by rw [ht]; omega) (le_refl _)

end

end

theorem getElem?_at_end (h : d.rest = []) : d.data[d.position]? = none :=
  getElem?_eq_none_iff.mpr (drop_eq_nil_iff.mp h)

theorem decodeHeader_at_end (h : d.rest = []) : decodeHeader d = .err eof d := by
  rw [decodeHeader, bind_read]
  dsimp only [id]
  rw [getElem?_at_end h]
  rfl

theorem isList_at_end (h : d.rest = []) : isList d = .err eof d := by
  rw [isList, bind_read]
  dsimp only [id]
  rw [getElem?_at_end h]
  rfl

theorem progresses_decodeItemWith : Progresses decodeItemWith where
  forward {rd} hrd := by
    intro d item d' h
    rw [decodeItemWith, bind_eq_ok] at h
    obtain ⟨⟨off, len, isData⟩, d, hhd, h⟩ := h
    obtain ⟨hh, rfl⟩ := decodeHeader_inv hhd
    obtain ⟨_, _, hskip, h⟩ := bind_eq_ok.mp h
    obtain ⟨_, _, hend, h⟩ := bind_eq_ok.mp h
    obtain rfl := skip_inv hskip
    obtain ⟨rfl, -, -⟩ := payloadEnd_inv hend
    have hbou := readHeader_bounds hh
    cases isData with
    | true =>
      obtain ⟨_, _, htake, h⟩ := bind_eq_ok.mp h
      cases h
      obtain ⟨-, rfl⟩ := takeBytes_inv htake
      simp only [advance_data, advance_position, true_and]
      omega
    | false =>
      obtain ⟨_, _, hwhi, h⟩ := bind_eq_ok.mp h
      cases h
      obtain ⟨hdata, hpos⟩ := decodeWhileF_forward hrd hwhi
      rw [advance_position] at hpos
      have hoff := hbou.2.2 rfl
      exact ⟨hdata, by omega⟩
  congr {rd rd' d} hrd hagr := by
    refine bind_congr rfl ?_
    rintro ⟨off, len, isData⟩ d₁ hhd
    obtain ⟨hh, rfl⟩ := decodeHeader_inv hhd
    refine bind_congr rfl fun _ d₂ hskip => ?_
    obtain rfl := skip_inv hskip
    refine bind_congr rfl fun stop d₃ hend => ?_
    obtain ⟨rfl, -, -⟩ := payloadEnd_inv hend
    cases isData with
    | true => rfl
    | false =>
      have hoff := (readHeader_bounds hh).2.2 rfl
      exact bind_congr (decodeWhile_congr hrd hagr hoff) fun _ _ _ => rfl
  at_end h := bind_of_err (decodeHeader_at_end h)

theorem decodeListWith_congr {rd rd' : Read α} (hrd : Forward rd)
    (hagr : AgreeFrom rd rd' (d.advance 1)) : decodeListWith rd d = decodeListWith rd' d := by
  refine bind_congr rfl ?_
  rintro ⟨off, len, isData⟩ d₁ hhd
  obtain ⟨hh, rfl⟩ := decodeHeader_inv hhd
  cases isData with
  | true => rfl
  | false =>
    refine bind_congr rfl fun _ d₂ hskip => ?_
    obtain rfl := skip_inv hskip
    refine bind_congr rfl fun stop d₃ hend => ?_
    obtain ⟨rfl, -, -⟩ := payloadEnd_inv hend
    have hoff := (readHeader_bounds hh).2.2 rfl
    exact bind_congr (decodeWhile_congr hrd hagr hoff) fun _ _ _ => rfl

theorem decodeListWith_forward {rd : Read α} (hrd : Forward rd) : Forward (decodeListWith rd) := by
  intro d items d' h
  obtain ⟨off, len, hh, hwhi, hend⟩ := decodeListWith_ok h
  have hoff := (readHeader_bounds hh).2.2 rfl
  exact ⟨(decodeWhileF_forward hrd hwhi).1, by omega⟩

theorem progresses_decodeWith : Progresses RlpItem.decodeWith where
  forward {rd} hrd := by
    intro d item d' h
    rw [RlpItem.decodeWith, bind_eq_ok] at h
    obtain ⟨list, d, hlist, h⟩ := h
    obtain rfl := isList_inv hlist
    cases list with
    | true =>
      obtain ⟨_, _, hits, h⟩ := bind_eq_ok.mp h
      cases h
      exact decodeListWith_forward hrd hits
    | false =>
      obtain ⟨_, _, hbs, h⟩ := bind_eq_ok.mp h
      cases h
      obtain ⟨b, ⟨-, rfl⟩, H⟩ := decodeBytes_inv hbs
      exact ⟨rfl, Nat.lt_add_of_pos_right H.length_pos⟩
  congr {rd rd' d} hrd hagr := by
    refine bind_congr rfl fun list d₁ hlist => ?_
    obtain rfl := isList_inv hlist
    cases list with
    | true => exact bind_congr (decodeListWith_congr hrd hagr) fun _ _ _ => rfl
    | false => rfl
  at_end h := bind_of_err (isList_at_end h)

end

theorem decodeItem_eq : decodeItem d = decodeItemWith decodeItem d :=
  progresses_decodeItemWith.recursive_eq

theorem RlpItem.decode_eq (d : Decoder) : RlpItem.decode d = RlpItem.decodeWith RlpItem.decode d :=
  progresses_decodeWith.recursive_eq

theorem decode_inv (h : RlpItem.decode d = .ok item d') : ∃ b, Took d d' b ∧ Reads item b :=
  nested_decode_inv h

theorem decodeItem_string (h : decodeItem d = .ok item d')
    (hh : readHeader d.rest = .ok (off, len, true)) : ∃ s, item = .string s := by
  rw [decodeItem_eq, decodeItemWith, bind_eq_ok] at h
  obtain ⟨header, d, hhd, h⟩ := h
  obtain ⟨hh', rfl⟩ := decodeHeader_inv hhd
  rw [hh] at hh'
  cases hh'
  obtain ⟨_, _, -, h⟩ := bind_eq_ok.mp h
  obtain ⟨_, _, -, h⟩ := bind_eq_ok.mp h
  obtain ⟨s, _, -, h⟩ := bind_eq_ok.mp h
  exact ⟨s, (pure_eq_ok.mp h).1⟩

theorem decode_yields (H : Reads item b) : Yields RlpItem.decode item b := by
  intro d tail hd hrest
  have hle := position_add_le hrest H.length_pos
  exact nested_decode_yields H (by omega) d tail hd hrest

end EthereumRust.Rlp
