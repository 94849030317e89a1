import BloomBee.Lib.Fallible
import BloomBee.Spec.LosslessWrapper

/-! The parts of the wire format read back: byte lanes, headers and byte-split payloads. -/

set_option autoImplicit false

namespace BloomBee.LosslessTransport

open Fallible Strided

/-! Byte lanes. -/

/-- Filling lanes of the right length one after the other never fails, and the lanes below
`start` are kept. -/
theorem setLanes_spec (step m : ℕ) (out : Bytes) (start : ℕ) (srcs : List Bytes)
    (hout : out.length = m * step) (hstart : start + srcs.length ≤ step)
    (hsrcs : ∀ src ∈ srcs, src.length = m) :
    ∃ ys, setLanes step out start srcs = .ok ys ∧ ys.length = out.length ∧
      (∀ i < srcs.length, ∀ k, ys[start + i + k * step]? = (srcs.getD i [])[k]?) ∧
      ∀ r < start, ∀ k, ys[r + k * step]? = out[r + k * step]? := by
  induction srcs generalizing out start with
  | nil => exact ⟨out, rfl, rfl, by simp, fun _ _ _ => rfl⟩
  | cons src rest ih =>
    rw [List.length_cons] at hstart
    have hlt : start < step := by omega
    obtain ⟨out', hset⟩ : ∃ out', setLane out start step src = some out' :=
      setLane_isSome (by rw [lane_length hlt hout]; exact hsrcs src (by simp))
    obtain ⟨hlen, hself, -⟩ := setLane_spec (by omega) hset
    obtain ⟨ys, hrun, hylen, hlanes, hkept⟩ := ih out' (start + 1)
      (hlen.trans hout) (by omega) (fun s hs => hsrcs s (by simp [hs]))
    refine ⟨ys, by simp only [setLanes, hset, hrun], hylen.trans hlen, ?_, ?_⟩
    · intro i hi k
      cases i with
      | zero => rw [Nat.add_zero, hkept start (by omega) k, hself k, List.getD_cons_zero]
      | succ i =>
        rw [List.getD_cons_succ, ← hlanes i (by simpa using hi) k]
        congr 1
        omega
    · intro r hr k
      rw [hkept r (by omega) k, getElem?_setLane_ne hset (by omega) hlt (by omega) k]

/-- The lanes of a string, put next to each other again, are the string. -/
theorem setLanes_lanes {raw out : Bytes} {m step : ℕ} (hstep : 0 < step)
    (hraw : raw.length = m * step) (hout : out.length = m * step) :
    setLanes step out 0 ((List.range step).map fun r => lane raw r step) = .ok raw := by
  have hlanes : ∀ src ∈ (List.range step).map fun r => lane raw r step, src.length = m := by
    intro src hsrc
    obtain ⟨r, hr, rfl⟩ := List.mem_map.1 hsrc
    exact lane_length (List.mem_range.1 hr) hraw
  obtain ⟨ys, hrun, -, hys, -⟩ := setLanes_spec step m out 0 _ hout (by simp) hlanes
  rw [hrun]
  refine congrArg Except.ok (ext_lanes step hstep fun r hr k => ?_)
  have hl := hys r (by simpa using hr) k
  rw [Nat.zero_add] at hl
  rw [hl, List.getD_eq_getElem _ _ (by simpa using hr), List.getElem_map, List.getElem_range,
    getElem?_lane hstep]

/-- Lanes of one length, put next to each other, are the lanes of the result. -/
theorem lane_setLanes (step m : ℕ) (out : Bytes) (srcs : List Bytes)
    (hout : out.length = m * step) (hstep : srcs.length = step)
    (hsrcs : ∀ src ∈ srcs, src.length = m) :
    ∃ ys, setLanes step out 0 srcs = .ok ys ∧ ys.length = m * step ∧
      ∀ r < step, lane ys r step = srcs.getD r [] := by
  obtain ⟨ys, hrun, hlen, hys, -⟩ := setLanes_spec step m out 0 srcs hout (by omega) hsrcs
  refine ⟨ys, hrun, hlen.trans hout, fun r hr => List.ext_getElem? fun k => ?_⟩
  rw [getElem?_lane (by omega), ← hys r (by omega) k, Nat.zero_add]

/-- The lanes of a split and the whole they are put back to. -/
def LanesOf (raw : Bytes) (elemSize : ℕ) (extracted remaining : Bytes) : Prop :=
  extracted.length = raw.length / elemSize ∧
    remaining.length = raw.length - raw.length / elemSize ∧
    reconstructHighByteLane extracted remaining elemSize raw.length = .ok raw

/-- Lanes of the right lengths are put back in their order. -/
theorem reconstruct_two {extracted remaining : Bytes} {m : ℕ} (hext : extracted.length = m)
    (hrem : remaining.length = m) :
    reconstructHighByteLane extracted remaining 2 (m * 2) =
      setLanes 2 (List.replicate (m * 2) 0) 0 [remaining, extracted] := by
  unfold reconstructHighByteLane
  rw [if_neg (by omega), if_neg (by omega), if_neg (by omega), if_pos rfl]

theorem reconstruct_four {extracted remaining : Bytes} {m : ℕ} (hext : extracted.length = m)
    (hrem : remaining.length = m * 3) :
    reconstructHighByteLane extracted remaining 4 (m * 4) =
      setLanes 4 (List.replicate (m * 4) 0) 0
        [lane remaining 0 3, lane remaining 1 3, lane remaining 2 3, extracted] := by
  unfold reconstructHighByteLane
  rw [if_neg (by omega), if_neg (by omega), if_neg (by omega), if_neg (by omega), if_pos rfl]

theorem lanesOf_two {raw : Bytes} {m : ℕ} (hm : raw.length = m * 2) :
    LanesOf raw 2 (lane raw 1 2) (lane raw 0 2) := by
  have hext : (lane raw 1 2).length = m := lane_length (by omega) hm
  have hrem : (lane raw 0 2).length = m := lane_length (by omega) hm
  refine ⟨by omega, by omega, ?_⟩
  rw [hm, reconstruct_two hext hrem]
  exact setLanes_lanes (by omega) hm (by simp)

/-- The three low bytes of every element, next to each other. -/
theorem lowLanes {raw : Bytes} {m : ℕ} (hm : raw.length = m * 4) :
    ∃ low, setLanes 3 (List.replicate (raw.length - (lane raw 3 4).length) 0) 0
        [lane raw 0 4, lane raw 1 4, lane raw 2 4] = .ok low ∧ low.length = m * 3 ∧
      lane low 0 3 = lane raw 0 4 ∧ lane low 1 3 = lane raw 1 4 ∧ lane low 2 3 = lane raw 2 4 := by
  have hlane : ∀ r < 4, (lane raw r 4).length = m := fun r hr => lane_length hr hm
  obtain ⟨low, hlow, hlen, hlanes⟩ := lane_setLanes 3 m
    (List.replicate (raw.length - (lane raw 3 4).length) 0) [lane raw 0 4, lane raw 1 4, lane raw 2 4]
    (by rw [List.length_replicate, hlane 3 (by omega)]; omega) rfl (by simp [hlane])
  exact ⟨low, hlow, hlen, hlanes 0 (by omega), hlanes 1 (by omega), hlanes 2 (by omega)⟩

theorem lanesOf_four {raw low : Bytes} {m : ℕ} (hm : raw.length = m * 4)
    (hlow : setLanes 3 (List.replicate (raw.length - (lane raw 3 4).length) 0) 0
      [lane raw 0 4, lane raw 1 4, lane raw 2 4] = .ok low) :
    LanesOf raw 4 (lane raw 3 4) low := by
  have hext : (lane raw 3 4).length = m := lane_length (by omega) hm
  obtain ⟨low', hlow', hlen, h0, h1, h2⟩ := lowLanes hm
  obtain rfl : low = low' := Except.ok.inj (hlow.symm.trans hlow')
  refine ⟨by omega, by omega, ?_⟩
  rw [hm, reconstruct_four hext hlen, h0, h1, h2]
  exact setLanes_lanes (by omega) hm (by simp)

/-- Splitting what two lanes of matching lengths are put together to gives the lanes. -/
theorem split_reconstruct_two {extracted remaining : Bytes} {m : ℕ} (hext : extracted.length = m)
    (hrem : remaining.length = m) :
    ∃ raw, reconstructHighByteLane extracted remaining 2 (m * 2) = .ok raw ∧
      raw.length = m * 2 ∧ splitHighByteLane raw 2 = .ok (extracted, remaining) := by
  obtain ⟨raw, hrun, hlen, hlanes⟩ := lane_setLanes 2 m (List.replicate (m * 2) 0)
    [remaining, extracted] (by simp) rfl
    (by simp [hext, hrem])
  have h0 : lane raw 0 2 = remaining := hlanes 0 (by omega)
  have h1 : lane raw 1 2 = extracted := hlanes 1 (by omega)
  refine ⟨raw, (reconstruct_two hext hrem).trans hrun, hlen, ?_⟩
  rw [splitHighByteLane, if_pos rfl, h0, h1]

theorem split_reconstruct_four {extracted remaining : Bytes} {m : ℕ} (hext : extracted.length = m)
    (hrem : remaining.length = m * 3) :
    ∃ raw, reconstructHighByteLane extracted remaining 4 (m * 4) = .ok raw ∧
      raw.length = m * 4 ∧ splitHighByteLane raw 4 = .ok (extracted, remaining) := by
  have hlow : ∀ r < 3, (lane remaining r 3).length = m := fun r hr => lane_length hr hrem
  obtain ⟨raw, hrun, hlen, hlanes⟩ := lane_setLanes 4 m (List.replicate (m * 4) 0)
    [lane remaining 0 3, lane remaining 1 3, lane remaining 2 3, extracted] (by simp) rfl
    (by simp [hext, hlow])
  have h0 : lane raw 0 4 = lane remaining 0 3 := hlanes 0 (by omega)
  have h1 : lane raw 1 4 = lane remaining 1 3 := hlanes 1 (by omega)
  have h2 : lane raw 2 4 = lane remaining 2 3 := hlanes 2 (by omega)
  have h3 : lane raw 3 4 = extracted := hlanes 3 (by omega)
  -- the low lanes are put back as they lay in `remaining`
  have hback : setLanes 3 (List.replicate (raw.length - extracted.length) 0) 0
      [lane remaining 0 3, lane remaining 1 3, lane remaining 2 3] = .ok remaining :=
    setLanes_lanes (by omega) hrem (by rw [List.length_replicate]; omega)
  refine ⟨raw, (reconstruct_four hext hrem).trans hrun, hlen, ?_⟩
  rw [splitHighByteLane, if_neg (by omega), if_pos rfl, h0, h1, h2, h3]
  exact congrArg (· >>= fun remaining => pure (extracted, remaining)) hback

/-- Splitting off the high byte lane and putting it back gives the original bytes. -/
theorem lanesOf_split {raw extracted remaining : Bytes} {elemSize : ℕ}
    (h : splitHighByteLane raw elemSize = .ok (extracted, remaining))
    (hdiv : raw.length % elemSize = 0) :
    (elemSize = 2 ∨ elemSize = 4) ∧ LanesOf raw elemSize extracted remaining := by
  unfold splitHighByteLane at h
  split_ifs at h with h2 h4
  · subst h2
    obtain ⟨rfl, rfl⟩ := Prod.mk.inj (Except.ok.inj h)
    exact ⟨.inl rfl, lanesOf_two (m := raw.length / 2) (by omega)⟩
  · subst h4
    obtain ⟨low, hlow, hpure⟩ := bind_eq_ok h
    obtain ⟨rfl, rfl⟩ := Prod.mk.inj (Except.ok.inj hpure)
    exact ⟨.inr rfl, lanesOf_four (m := raw.length / 4) (by omega) hlow⟩

theorem splitHighByteLane_ok {raw : Bytes} {elemSize : ℕ} (hsize : elemSize = 2 ∨ elemSize = 4)
    (hdiv : raw.length % elemSize = 0) :
    ∃ extracted remaining, splitHighByteLane raw elemSize = .ok (extracted, remaining) := by
  rcases hsize with rfl | rfl
  · exact ⟨lane raw 1 2, lane raw 0 2, by rw [splitHighByteLane, if_pos rfl]⟩
  · have hlength : raw.length = raw.length / 4 * 4 := by omega
    obtain ⟨low, hlow, -⟩ := lowLanes hlength
    refine ⟨lane raw 3 4, low, ?_⟩
    rw [splitHighByteLane, if_neg (by omega), if_pos rfl]
    exact congrArg (· >>= fun remaining => pure (lane raw 3 4, remaining)) hlow

/-! Headers and payloads. -/

/-- The header is read back in both modes, whatever follows it. -/
theorem parseWrapper_packHeader {algoId size : ℕ} {header : Bytes} (strict : Bool)
    (h : packHeader algoId size = .ok header) (payload : Bytes) :
    parseWrapper (header ++ payload) strict = .ok (some (algoId, size, payload)) := by
  unfold packHeader at h
  split_ifs at h with hr
  obtain rfl := Except.ok.inj h
  simp only [List.append_assoc]
  have hv : (BigEndian.encode 1 VERSION).length = 1 := BigEndian.encode_length _ _
  have ha : (BigEndian.encode 1 algoId).length = 1 := BigEndian.encode_length _ _
  have hs : (BigEndian.encode 8 size).length = 8 := BigEndian.encode_length _ _
  have hmagic : MAGIC.length = 4 := rfl
  have hver : BigEndian.decode (BigEndian.encode 1 VERSION) = VERSION :=
    BigEndian.decode_encode (by decide)
  unfold parseWrapper
  rw [if_neg (by simp only [List.length_append, hv, ha, hs, hmagic, HEADER_SIZE]; omega),
    List.take_left' hmagic, if_neg (by simp), List.drop_left' hmagic, List.take_left' hv, hver,
    if_neg (by simp)]
  -- the algorithm id, the size and the payload, each behind the bytes before it
  rw [show (5 : ℕ) = 4 + 1 from rfl, ← List.drop_drop, List.drop_left' hmagic, List.drop_left' hv,
    List.take_left' ha, show (6 : ℕ) = 4 + (1 + 1) from rfl, ← List.drop_drop,
    List.drop_left' hmagic, ← List.drop_drop, List.drop_left' hv, List.drop_left' ha,
    List.take_left' hs, show HEADER_SIZE = 4 + (1 + (1 + 8)) from rfl, ← List.drop_drop,
    List.drop_left' hmagic, ← List.drop_drop, List.drop_left' hv, ← List.drop_drop,
    List.drop_left' ha, List.drop_left' hs, BigEndian.decode_encode hr.1,
    BigEndian.decode_encode hr.2]

theorem splitPayload_byteSplitPayload {elemSize originalSize : ℕ} {extracted remaining payload : Bytes}
    (h : byteSplitPayload elemSize extracted remaining = .ok payload) (hpos : 0 < elemSize)
    (hdiv : originalSize % elemSize = 0) :
    splitPayload payload originalSize = .ok (elemSize, extracted, remaining) := by
  obtain ⟨header, hpack, hpure⟩ := bind_eq_ok h
  obtain rfl := Except.ok.inj hpure
  unfold packByteSplit at hpack
  split_ifs at hpack with hr
  obtain rfl := Except.ok.inj hpack
  have he : (BigEndian.encode 1 elemSize).length = 1 := BigEndian.encode_length _ _
  have hx : (BigEndian.encode 4 extracted.length).length = 4 := BigEndian.encode_length _ _
  simp only [List.append_assoc]
  unfold splitPayload
  rw [if_neg (by simp only [List.length_append, he, hx, BYTE_SPLIT_PAYLOAD_SIZE]; omega),
    List.take_left' he, List.drop_left' he, List.take_left' hx, BigEndian.decode_encode hr.1,
    BigEndian.decode_encode hr.2, if_neg (by
      simp only [List.length_append, he, hx, BYTE_SPLIT_PAYLOAD_SIZE]; omega),
    if_neg (by rw [Nat.max_eq_right hpos]; omega), if_neg (by omega)]
  have hend : BYTE_SPLIT_PAYLOAD_SIZE + extracted.length = 1 + (4 + extracted.length) := by
    rw [BYTE_SPLIT_PAYLOAD_SIZE]; omega
  have hdrop : (BigEndian.encode 1 elemSize ++ (BigEndian.encode 4 extracted.length ++
      (extracted ++ remaining))).drop (1 + (4 + extracted.length)) = remaining := by
    rw [← List.drop_drop, List.drop_left' he, ← List.drop_drop, List.drop_left' hx,
      List.drop_left' rfl]
  have htake : ((BigEndian.encode 1 elemSize ++ (BigEndian.encode 4 extracted.length ++
      (extracted ++ remaining))).take (1 + (4 + extracted.length))).drop 5 = extracted := by
    rw [List.drop_take, show (5 : ℕ) = 1 + 4 from rfl, ← List.drop_drop, List.drop_left' he,
      List.drop_left' hx, show 1 + (4 + extracted.length) - (1 + 4) = extracted.length by omega,
      List.take_left' rfl]
  rw [hend, hdrop, show BYTE_SPLIT_PAYLOAD_SIZE = 5 from rfl, htake]

end BloomBee.LosslessTransport
