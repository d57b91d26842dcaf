import Modelnet.FreeBSD.HopClock
import Modelnet.Scripts.Modelload

/-!
# `modelmod`

`modelmod` reads descriptions of hops, one on a line, and writes each of them to `hopmod`. A field is
taken from the line by a pattern whose parts exclude each other, so the leftmost match is found
without backtracking. The unit of the bandwidth is what `s/(\D+)//` takes out of it; when it has no
such part, `$1` still holds what the last pattern that matched has captured. Bandwidths are bits per
second here, while `modelload` writes kilobits; and the six words of the record are one word short
of `struct sysctl_hopmod`, whose last field is the queueing discipline.
-/

namespace Modelnet.Scripts

open Modelnet FreeBSD

/-! ## Patterns -/

/-- `\s`. -/
def isSpace (c : Char) : Bool :=
  c = ' ' || c = '\t' || c = '\n' || c = '\r' || c = Char.ofNat 12

/-- `(\d+)`. -/
def digits (s : List Char) : Option (List Char) :=
  match s.takeWhile Char.isDigit with
  | [] => none
  | d => some d

/-- `(\S+)`. -/
def nonSpace (s : List Char) : Option (List Char) :=
  match s.takeWhile fun c => !isSpace c with
  | [] => none
  | d => some d

/-- `(\d*\.\d*)`. -/
def decimal (s : List Char) : Option (List Char) :=
  match s.dropWhile Char.isDigit with
  | '.' :: rest => some (s.takeWhile Char.isDigit ++ '.' :: rest.takeWhile Char.isDigit)
  | _ => none

/-- `key\s+(...)` at the start of the text. -/
def captureHere (key : List Char) (value : List Char → Option (List Char)) (s : List Char) :
    Option (List Char) :=
  if key.isPrefixOf s then
    let rest := s.drop key.length
    if rest.head?.any isSpace then value (rest.dropWhile isSpace) else none
  else none

/-- `/key\s+(...)/`. -/
def capture (key : String) (value : List Char → Option (List Char)) : List Char →
    Option (List Char)
  | [] => captureHere key.toList value []
  | c :: s => captureHere key.toList value (c :: s) <|> capture key value s

/-! ## Numbers -/

/-- The number that a text begins with. -/
def numberOf (s : List Char) : ℕ :=
  (s.takeWhile Char.isDigit).foldl (fun n c => 10 * n + (c.toNat - '0'.toNat)) 0

/-- The value of `d.d`. -/
def decimalOf (s : List Char) : ℚ :=
  let whole := s.takeWhile Char.isDigit
  let part := (s.drop (whole.length + 1)).takeWhile Char.isDigit
  (numberOf (whole ++ part) : ℚ) / 10 ^ part.length

/-! ## A line -/

/-- `s/#.*//`. -/
def stripComment (s : List Char) : List Char :=
  s.takeWhile (· ≠ '#') ++ (s.dropWhile (· ≠ '#')).dropWhile (· ≠ '\n')

/-- What the patterns capture. -/
structure HopLine where
  pipeid : Option (List Char)
  bw : Option (List Char)
  delay : Option (List Char)
  plr : Option (List Char)
  slots : Option (List Char)
  owner : Option (List Char)

/-- The fields of a line, in the order of the patterns. -/
def hopLine (line : String) : HopLine :=
  let s := stripComment line.toList
  { pipeid := capture "config" digits s
    bw := capture "bw" nonSpace s
    delay := capture "delay" digits s
    plr := capture "plr" decimal s
    slots := capture "queue" digits s
    owner := capture "owner" nonSpace s }

namespace HopLine

/-- What the last pattern that matched has captured. -/
def lastCapture (l : HopLine) : List Char :=
  (l.owner <|> l.slots <|> l.plr <|> l.delay <|> l.bw <|> l.pipeid).getD []

/-- `$bw` with its default. -/
def bwText (l : HopLine) : List Char := l.bw.getD ['0']

def bwUnit (l : HopLine) : List Char :=
  match (l.bwText.dropWhile Char.isDigit).takeWhile fun c => !c.isDigit with
  | [] => l.lastCapture
  | unit => unit

/-- `$bw`, without the unit. -/
def bwNumber (l : HopLine) : ℕ :=
  numberOf (l.bwText.takeWhile Char.isDigit ++
    (l.bwText.dropWhile Char.isDigit).dropWhile fun c => !c.isDigit)

/-- The bandwidth, in bits per second. -/
def bandwidth (l : HopLine) : ℕ :=
  let bw := if 'B' ∈ l.bwUnit then l.bwNumber <<< 3 else l.bwNumber
  let bw := if 'k' ∈ l.bwUnit ∨ 'K' ∈ l.bwUnit then bw * 1000 else bw
  if 'm' ∈ l.bwUnit ∨ 'M' ∈ l.bwUnit then bw * 1000000 else bw

/-- `$delay`. -/
def delayMs (l : HopLine) : ℕ := numberOf (l.delay.getD [])

/-- `$plr`, before it is scaled. -/
def lossRate (l : HopLine) : ℚ := decimalOf (l.plr.getD [])

/-- `$slots`; 10 unless it is given and not 0. -/
def slotCount (l : HopLine) : ℕ :=
  match l.slots with
  | some s => if s = ['0'] then 10 else numberOf s
  | none => 10

/-- `$owner`. -/
def ownerOf (resolve : String → BitVec 32) (hostname : String) (l : HopLine) : BitVec 32 :=
  let owner := ipaddr resolve (String.ofList (l.owner.getD ['0']))
  if ipaddr resolve hostname = owner then 0 else owner

/-- The words of `pack("L6", ...)`. -/
def words (resolve : String → BitVec 32) (hostname : String) (l : HopLine) : List (BitVec 32) :=
  [BitVec.ofNat 32 (numberOf (l.pipeid.getD [])), BitVec.ofNat 32 l.bandwidth,
    BitVec.ofNat 32 l.delayMs, (packL (0x7fffffff * l.lossRate)).toBitVec,
    BitVec.ofNat 32 l.slotCount, l.ownerOf resolve hostname]

def hopbuf (resolve : String → BitVec 32) (hostname : String) (l : HopLine) : List Byte :=
  (l.words resolve hostname).flatMap le32

/-- The parameters that a model would give to this hop: kilobits, and no discipline. -/
def params (l : HopLine) : HopParams where
  kbps := some ((l.bandwidth : ℚ) / 1000)
  delayms := some l.delayMs
  plr := some l.lossRate
  qlen := some l.slotCount
  xtq := none

end HopLine

/-! ## The handler -/

def hopmodSize : ℕ := 28

/-- `struct sysctl_hopmod` in memory. -/
def decodeHopmod (bs : List Byte) : SysctlHopmod where
  hopidx := .ofBitVec (le32At bs 0)
  hop :=
    { bandwidth := .ofBitVec (le32At bs 4)
      delay := .ofBitVec (le32At bs 8)
      plr := .ofBitVec (le32At bs 12)
      qsize := .ofBitVec (le32At bs 16)
      emulator := le32At bs 20
      xtqType := .ofBitVec (le32At bs 24) }

/-- The bytes of a `struct sysctl_hopmod`. -/
def encodeHopmod (m : SysctlHopmod) : List Byte :=
  le32 m.hopidx.toBitVec ++ le32 m.hop.bandwidth.toBitVec ++ le32 m.hop.delay.toBitVec ++
    le32 m.hop.plr.toBitVec ++ le32 m.hop.qsize.toBitVec ++ le32 m.hop.emulator ++
    le32 m.hop.xtqType.toBitVec

@[simp] theorem length_encodeHopmod (m : SysctlHopmod) : (encodeHopmod m).length = hopmodSize := rfl

theorem decodeHopmod_encodeHopmod (m : SysctlHopmod) : decodeHopmod (encodeHopmod m) = m := by
  simp only [decodeHopmod, encodeHopmod, le32At, le32, List.nil_append, List.cons_append,
    Nat.reduceAdd, List.getD_cons_succ, List.getD_cons_zero, extractLsb'_append_bytes,
    Int32.ofBitVec_toBitVec]

/-- The request that writes a buffer to `hopmod` and asks for the old value. `SYSCTL_IN` refuses a
buffer that is shorter than the struct. -/
def hopmodRequest (bs : List Byte) (env : XtqEnv) : HopmodWrite where
  error := if bs.length < hopmodSize then einval else 0
  newptr := true
  oldptr := true
  mod := decodeHopmod bs
  outError := 0
  env := env

/-! ## Against `modelload` -/

variable {resolve : String → BitVec 32} {hostname : String} {l : HopLine} {c : XtqCore}
  {env : XtqEnv}

def HopLine.hopidx (l : HopLine) : Int32 := .ofBitVec (BitVec.ofNat 32 (numberOf (l.pipeid.getD [])))

/-- The record of `modelload` for a hop with the same bandwidth, delay, loss rate and owner. -/
def HopLine.loaded (resolve : String → BitVec 32) (hostname : String) (l : HopLine) : SysctlHop :=
  l.params.record (l.ownerOf resolve hostname)

/-- The record has the layout of the struct, and wherever it is accepted the hop is afterwards the
one that a load with the record of `modelload` would have installed. -/
structure Agrees (resolve : String → BitVec 32) (hostname : String) (l : HopLine) : Prop where
  layout : ∃ m : SysctlHopmod, m.hopidx = l.hopidx ∧ l.hopbuf resolve hostname = encodeHopmod m
  accepted : ∀ (c c' : XtqCore) (env : XtqEnv) (b : ℕ), c.tab.hoptable = some b →
    c.sysctlHopmodhandle (hopmodRequest (l.hopbuf resolve hostname) env) = some (c', 0) →
    ∃ hop, c'.tab.hops ⟨b, l.hopidx.toInt⟩ = some hop ∧
      let loaded := Hop.install c.xs.hz 0 (l.loaded resolve hostname)
      (hop.KBps, hop.bytespertick, hop.delay, hop.plr, hop.emulator) =
        (loaded.KBps, loaded.bytespertick, loaded.delay, loaded.plr, loaded.emulator) ∧
      (c'.xs.xtq ⟨b, l.hopidx.toInt⟩).type = (l.loaded resolve hostname).xtqType.toInt

theorem HopLine.length_hopbuf (l : HopLine) : (l.hopbuf resolve hostname).length = 24 := rfl

theorem sysctlHopmodhandle_hopbuf (c : XtqCore) (l : HopLine) (env : XtqEnv) :
    c.sysctlHopmodhandle (hopmodRequest (l.hopbuf resolve hostname) env) = some (c, einval) := by
  have herror : (hopmodRequest (l.hopbuf resolve hostname) env).error = einval := rfl
  unfold XtqCore.sysctlHopmodhandle
  rw [herror, if_pos (.inl (by decide))]
  rfl

/-- With the missing word the fields are in their places, and the bandwidth is still in bits: the hop
gets an eighth of the bits per second as its KBps, where a load gives it an eighth of the
kilobits. -/
theorem hopbuf_append_xtqType (l : HopLine) (xtqType : Int32) :
    (decodeHopmod (l.hopbuf resolve hostname ++ le32 xtqType.toBitVec)).hopidx = l.hopidx ∧
    (decodeHopmod (l.hopbuf resolve hostname ++ le32 xtqType.toBitVec)).hop.bandwidth =
      .ofBitVec (BitVec.ofNat 32 l.bandwidth) ∧
    (l.loaded resolve hostname).bandwidth = packL (l.bandwidth / 1000) := by
  have henc : l.hopbuf resolve hostname ++ le32 xtqType.toBitVec = encodeHopmod
      ⟨l.hopidx, .ofBitVec (BitVec.ofNat 32 l.bandwidth), .ofBitVec (BitVec.ofNat 32 l.delayMs),
        packL (0x7fffffff * l.lossRate), .ofBitVec (BitVec.ofNat 32 l.slotCount),
        l.ownerOf resolve hostname, xtqType⟩ := rfl
  rw [henc, decodeHopmod_encodeHopmod]
  exact ⟨rfl, rfl, rfl⟩

theorem hopbuf_ne_encodeHopmod (l : HopLine) (m : SysctlHopmod) :
    l.hopbuf resolve hostname ≠ encodeHopmod m := by
  intro hbuf
  have hlen := congrArg List.length hbuf
  rw [HopLine.length_hopbuf, length_encodeHopmod] at hlen
  exact absurd hlen (by decide)

/-- **`modelmod` never agrees with `modelload`**: for no line is the record that of the struct, and
the handler refuses it and leaves everything as it is. -/
theorem modelmod_not_agrees (resolve : String → BitVec 32) (hostname line : String) :
    ¬ Agrees resolve hostname (hopLine line) ∧
      ∀ (c : XtqCore) (env : XtqEnv), c.sysctlHopmodhandle
        (hopmodRequest ((hopLine line).hopbuf resolve hostname) env) = some (c, einval) := by
  refine ⟨fun hagrees => ?_, fun c env => sysctlHopmodhandle_hopbuf c _ env⟩
  obtain ⟨m, -, hbuf⟩ := hagrees.layout
  exact hopbuf_ne_encodeHopmod _ m hbuf

/-- A hop of 10 Mb, 20 ms and one loss in a hundred: its six words are right, and the record is
refused. -/
theorem modelmod_record_refused :
    (hopLine "config 3 bw 10Mb delay 20 plr 0.01 queue 50").words (fun _ => 0) "core" =
        [3, 10000000, 20, 21474836, 50, 0] ∧
      ¬ Agrees (fun _ => 0) "core" (hopLine "config 3 bw 10Mb delay 20 plr 0.01 queue 50") := by
  refine ⟨by decide +kernel, fun hagrees => ?_⟩
  obtain ⟨m, -, hbuf⟩ := hagrees.layout
  exact hopbuf_ne_encodeHopmod _ m hbuf

end Modelnet.Scripts
