import Modelnet.Lib.FixedCodec
import Modelnet.CInt

/-!
# The record exchanged between cores

`struct remote_packet` with its layout on the 32-bit kernel the module is built for: twelve words
of four bytes, the byte `ttl` being followed by three bytes of padding (written as zeros). `src`
and `dst` are in network order, everything else in the order of the processor; the model holds all
of them as numbers.
-/

namespace Modelnet.FreeBSD

open Modelnet

abbrev Byte := BitVec 8

/-- The address of an object in the kernel, or null. -/
abbrev Addr := BitVec 32

structure RemotePacket where
  /-- opaque handle to the original packet, or null -/
  id : Addr
  /-- expiration time, in ticks -/
  expire : BitVec 32
  /-- length of the packet -/
  len : BitVec 32
  waitTime : BitVec 32
  src : BitVec 32
  dst : BitVec 32
  hop : BitVec 32
  /-- time-to-live in the multi-core system -/
  ttl : BitVec 8
  xcpCwnd : BitVec 32
  xcpSrcFdbk : BitVec 32
  xcpRflctFdbk : BitVec 32
  xcpRtt : BitVec 32
  deriving DecidableEq, Repr

def remotePacketSize : ℕ := 48

def udpiphdrSize : ℕ := 28

/-- The bytes of a word, lowest first. -/
def le32 (x : BitVec 32) : List Byte :=
  [x.extractLsb' 0 8, x.extractLsb' 8 8, x.extractLsb' 16 8, x.extractLsb' 24 8]

/-- The bytes of a word, highest first. -/
def be32 (x : BitVec 32) : List Byte := (le32 x).reverse

/-- The word at byte `i`, lowest byte first. -/
def le32At (bs : List Byte) (i : ℕ) : BitVec 32 :=
  bs.getD (i + 3) 0 ++ bs.getD (i + 2) 0 ++ bs.getD (i + 1) 0 ++ bs.getD i 0

/-- The word at byte `i`, highest byte first. -/
def be32At (bs : List Byte) (i : ℕ) : BitVec 32 :=
  bs.getD i 0 ++ bs.getD (i + 1) 0 ++ bs.getD (i + 2) 0 ++ bs.getD (i + 3) 0

theorem extractLsb'_append_bytes (x : BitVec 32) :
    x.extractLsb' 24 8 ++ x.extractLsb' 16 8 ++ x.extractLsb' 8 8 ++ x.extractLsb' 0 8 = x := by
  have h₂ : x.extractLsb' 24 8 ++ x.extractLsb' 16 8 = x.extractLsb' 16 16 :=
    BitVec.extractLsb'_append_extractLsb'_eq_extractLsb' rfl
  have h₃ : x.extractLsb' 16 16 ++ x.extractLsb' 8 8 = x.extractLsb' 8 24 :=
    BitVec.extractLsb'_append_extractLsb'_eq_extractLsb' rfl
  have h₄ : x.extractLsb' 8 24 ++ x.extractLsb' 0 8 = x.extractLsb' 0 32 :=
    BitVec.extractLsb'_append_extractLsb'_eq_extractLsb' rfl
  rw [h₂, h₃, h₄]
  exact BitVec.extractLsb'_eq_self

namespace RemotePacket

/-- The bytes of a record, as `bcopy` takes them. -/
def encode (r : RemotePacket) : List Byte :=
  le32 r.id ++ le32 r.expire ++ le32 r.len ++ le32 r.waitTime ++ be32 r.src ++ be32 r.dst ++
    le32 r.hop ++ [r.ttl, 0, 0, 0] ++ le32 r.xcpCwnd ++ le32 r.xcpSrcFdbk ++ le32 r.xcpRflctFdbk ++
    le32 r.xcpRtt

/-- The record in the first bytes, as `m_copydata` leaves it. -/
def decode (bs : List Byte) : RemotePacket where
  id := le32At bs 0
  expire := le32At bs 4
  len := le32At bs 8
  waitTime := le32At bs 12
  src := be32At bs 16
  dst := be32At bs 20
  hop := le32At bs 24
  ttl := bs.getD 28 0
  xcpCwnd := le32At bs 32
  xcpSrcFdbk := le32At bs 36
  xcpRflctFdbk := le32At bs 40
  xcpRtt := le32At bs 44

@[simp] theorem length_encode (r : RemotePacket) : r.encode.length = remotePacketSize := rfl

theorem decode_encode_append (r : RemotePacket) (rest : List Byte) :
    decode (r.encode ++ rest) = r := by
  simp only [decode, encode, le32At, be32At, le32, be32, List.reverse_cons, List.reverse_nil,
    List.nil_append, List.cons_append, Nat.reduceAdd, List.getD_cons_succ,
    List.getD_cons_zero, extractLsb'_append_bytes]

def codec : FixedCodec Byte RemotePacket where
  size := remotePacketSize
  size_pos := by decide
  encode := encode
  decode := decode
  length_encode := length_encode
  decode_encode_append := decode_encode_append

end RemotePacket

end Modelnet.FreeBSD
