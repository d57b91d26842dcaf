import Modelnet.FreeBSD.RemotePacket
import Mathlib.Data.List.GetD

/-!
# XCP feedback

What the XCP discipline writes into a packet that leaves a hop: `xcp_dequeue` with
`fill_in_feedback`, and the two functions that move the feedback between the header of a TUF packet
and `info`. Of `struct _xcp_pipe_` the model has the variables that these functions use; the other
ones serve the estimates of `Te_timeout`, which sets these. Products and sums wrap at 64 bits.
-/

namespace Modelnet.FreeBSD

open Modelnet

/-- `struct _xcp_pipe_`. -/
structure XcpPipe where
  te : BitVec 64
  xiPos : BitVec 64
  xiNeg : BitVec 64
  bta : BitVec 64
  btf : BitVec 64
  runningMinQueueKbytes : BitVec 64
  deriving DecidableEq

def multiFac : ℕ := 1000

def fpShift : ℕ := 10

def fpExtra : ℕ := 1

def ipprotoTuf : Byte := 132

def xcpMin (x y : BitVec 64) : BitVec 64 := if x < y then x else y

def xcpMax (x y : BitVec 64) : BitVec 64 := if y < x then x else y

namespace XcpPipe

def teByRtt (hz : ℕ) (p : XcpPipe) (rtt value : BitVec 64) : BitVec 64 :=
  value * ((p.te <<< fpShift) / BitVec.ofNat 64 hz) / rtt

/-- `inv_rate`, for a divisor that is not 0. -/
def invRate (info : RemotePacket) : BitVec 64 :=
  let rtt := info.xcpRtt.setWidth 64
  ((rtt * (info.len / BitVec.ofNat 32 multiFac).setWidth 64) <<< fpShift <<< fpExtra) /
    (info.xcpCwnd / BitVec.ofNat 32 multiFac).setWidth 64

def posFeedback (p : XcpPipe) (info : RemotePacket) : BitVec 64 :=
  xcpMin p.bta ((p.xiPos * invRate info * info.xcpRtt.setWidth 64) >>> fpShift >>> fpShift >>>
    fpExtra)

def negFeedback (p : XcpPipe) (info : RemotePacket) : BitVec 64 :=
  xcpMin p.btf ((p.xiNeg * info.xcpRtt.setWidth 64 *
    (info.len / BitVec.ofNat 32 multiFac).setWidth 64) >>> fpShift)

def feedbackBytes (p : XcpPipe) (info : RemotePacket) : BitVec 32 :=
  (((p.posFeedback info - p.negFeedback info) * BitVec.ofNat 64 multiFac).sshiftRight
    fpShift).setWidth 32

/-- The pipe after a packet got its feedback. -/
def charged (hz : ℕ) (p : XcpPipe) (info : RemotePacket) : XcpPipe :=
  let rtt := info.xcpRtt.setWidth 64
  let pos := p.posFeedback info
  let neg := p.negFeedback info
  let teByRtt := p.teByRtt hz rtt
  if (p.feedbackBytes info).sle info.xcpSrcFdbk then
    { p with bta := xcpMax 0 (p.bta - teByRtt pos), btf := xcpMax 0 (p.btf - teByRtt neg) }
  else
    let fwd := (info.xcpSrcFdbk <<< fpShift).sdiv (BitVec.ofNat 32 multiFac)
    if BitVec.slt 0 fwd then
      { p with
        bta := p.bta - xcpMin (teByRtt (fwd.signExtend 64)) p.bta
        btf := p.btf - xcpMin p.btf (teByRtt (pos - neg - fwd.signExtend 64)) }
    else
      let btf := p.btf - xcpMin (teByRtt ((-fwd).signExtend 64)) p.btf
      { p with
        btf := if BitVec.slt 0 (pos - neg) then btf - xcpMin (teByRtt (pos - neg)) btf else btf }

/-- `fill_in_feedback`. `none` stands for the division by `xcp_cwnd/MULTI_FAC` when that is 0. -/
def fillInFeedback (hz : ℕ) (p : XcpPipe) (info : RemotePacket) :
    Option (XcpPipe × RemotePacket) :=
  if info.xcpCwnd ≠ 0 ∧ info.xcpRtt ≠ 0 then
    if info.len = 0 then some (p, info)
    else if info.xcpCwnd / BitVec.ofNat 32 multiFac = 0 then none
    else
      some (p.charged hz info,
        if (p.feedbackBytes info).sle info.xcpSrcFdbk then
          { info with xcpSrcFdbk := p.feedbackBytes info }
        else info)
  else some (p, { info with xcpSrcFdbk := 0 })

def xcpDequeue (hz : ℕ) (bytedepth : ℤ) (p : XcpPipe) (info : RemotePacket) :
    Option (XcpPipe × RemotePacket) :=
  let queue := BitVec.ofInt 64 (bytedepth.tdiv multiFac)
  let p := if queue < p.runningMinQueueKbytes then { p with runningMinQueueKbytes := queue } else p
  p.fillInFeedback hz info

variable {hz : ℕ} {bytedepth : ℤ} {p p' : XcpPipe} {info info' : RemotePacket}

theorem fillInFeedback_info (h : p.fillInFeedback hz info = some (p', info')) :
    info' = { info with xcpSrcFdbk := info'.xcpSrcFdbk } := by
  unfold fillInFeedback at h
  split_ifs at h with hack hlen hcwnd hless
  · cases h
    rfl
  · cases h
    rfl
  · cases h
    rfl
  · cases h
    rfl

theorem xcpDequeue_info (h : p.xcpDequeue hz bytedepth info = some (p', info')) :
    info' = { info with xcpSrcFdbk := info'.xcpSrcFdbk } := fillInFeedback_info h

end XcpPipe

/-! ## The header of a TUF packet -/

/-- `sizeof(struct acpiphdr)`: the IP header, and the ACP header with its XCP fields. -/
def acpiphdrSize : ℕ := 60

def ipProto (m : List Byte) : Byte := m.getD 9 0

def xcpGetXcpinfo (m : List Byte) (info : RemotePacket) : RemotePacket :=
  if ipProto m = ipprotoTuf then
    { info with
      xcpCwnd := be32At m 40
      xcpSrcFdbk := be32At m 44
      xcpRflctFdbk := be32At m 48
      xcpRtt := be32At m 52 }
  else { info with xcpCwnd := 0, xcpSrcFdbk := 0, xcpRflctFdbk := 0, xcpRtt := 100 }

/-- A word written at byte `i`, highest byte first. -/
def setBe32 (m : List Byte) (i : ℕ) (x : BitVec 32) : List Byte :=
  m.take i ++ be32 x ++ m.drop (i + 4)

theorem getD_setBe32_of_lt {m : List Byte} {i j : ℕ} (hj : j < i) (hi : i ≤ m.length)
    (x : BitVec 32) : (setBe32 m i x).getD j 0 = m.getD j 0 := by
  have hlen : j < (m.take i).length := by
    rw [List.length_take, Nat.min_eq_left hi]
    exact hj
  unfold setBe32
  rw [List.append_assoc, List.getD_append _ _ _ _ hlen, List.getD_eq_getElem?_getD,
    List.getElem?_take_of_lt hj, ← List.getD_eq_getElem?_getD]

theorem be32At_setBe32_of_le {m : List Byte} {i j : ℕ} (hj : j + 4 ≤ i) (hi : i ≤ m.length)
    (x : BitVec 32) : be32At (setBe32 m i x) j = be32At m j := by
  unfold be32At
  rw [getD_setBe32_of_lt (by omega) hi, getD_setBe32_of_lt (by omega) hi,
    getD_setBe32_of_lt (by omega) hi, getD_setBe32_of_lt (by omega) hi]

theorem be32At_setBe32_self {m : List Byte} {i : ℕ} (hi : i ≤ m.length) (x : BitVec 32) :
    be32At (setBe32 m i x) i = x := by
  have hlen : (m.take i).length = i := by rw [List.length_take, Nat.min_eq_left hi]
  have hbyte : ∀ k, k < 4 → (setBe32 m i x).getD (i + k) 0 = (be32 x).getD k 0 := by
    intro k hk
    unfold setBe32
    rw [List.append_assoc, List.getD_append_right _ _ _ _ (by omega), hlen, Nat.add_sub_cancel_left,
      List.getD_append _ _ _ _ hk]
  unfold be32At
  rw [show (setBe32 m i x).getD i 0 = _ from hbyte 0 (by decide), hbyte 1 (by decide),
    hbyte 2 (by decide), hbyte 3 (by decide)]
  exact extractLsb'_append_bytes x

theorem be32_injective {x y : BitVec 32} (h : be32 x = be32 y) : x = y := by
  have hx : be32At (be32 x) 0 = x := extractLsb'_append_bytes x
  rw [← hx, h]
  exact extractLsb'_append_bytes y

theorem setBe32_inj {m : List Byte} {i : ℕ} {x y : BitVec 32} :
    setBe32 m i x = setBe32 m i y ↔ x = y := by
  constructor
  · intro h
    unfold setBe32 at h
    exact be32_injective (List.append_cancel_left (List.append_cancel_right h))
  · rintro rfl
    rfl

/-- `xcp_set_xcpinfo`, up to the checksum. -/
def xcpSetXcpinfo (m : List Byte) (info : RemotePacket) : List Byte :=
  if ipProto m = ipprotoTuf then setBe32 m 44 info.xcpSrcFdbk else m

end Modelnet.FreeBSD
