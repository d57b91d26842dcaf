import Modelnet.Lib.Frames
import Modelnet.FreeBSD.RemotePacket
import Modelnet.Tools.Buildflows

/-!
# Log files

`LogReader` takes the records of a log one after the other, and the tools over it stop at the first
one it does not take. The buffers of the tools have different sizes, so that they do not always read
the same part of a log.
-/

namespace Modelnet.Tools

open FreeBSD (Byte le32At)

/-! ## `LogReader` -/

/-- An `istream` over the bytes of a file. -/
structure LogStream where
  rest : List Byte
  failed : Bool

/-- `istream::read`, with the `gcount()` bytes that it got. -/
def LogStream.read (s : LogStream) (n : ℕ) : List Byte × LogStream :=
  if s.failed then ([], s) else (s.rest.take n, ⟨s.rest.drop n, decide (s.rest.length < n)⟩)

/-- `header->length`, behind the sentinel and the type. -/
def headerLength (header : List Byte) : ℤ := (le32At header 8).toInt

/-- `LogReader::nextEntry` with the record it leaves in the buffer. `headerSize` is the size of
`struct net_log_header`, which depends on the alignment of its last two fields. A record that claims
to be shorter than its header makes the second `read` fail, its count being negative. -/
def nextEntry (headerSize maxSize : ℕ) (s : LogStream) : Option (List Byte) × LogStream :=
  let (header, s) := s.read headerSize
  if header.length ≠ headerSize ∨ (maxSize : ℤ) < headerLength header then (none, s)
  else if headerLength header < headerSize then (none, { s with failed := true })
  else
    let count := (headerLength header - headerSize).toNat
    let (body, s) := s.read count
    if body.length ≠ count then (none, s) else (some (header ++ body), s)

/-- The loop over `nextEntry`, with at most `n` turns. -/
def readEntries (headerSize maxSize : ℕ) : ℕ → LogStream → List (List Byte)
  | 0, _ => []
  | n + 1, s =>
    match nextEntry headerSize maxSize s with
    | (none, _) => []
    | (some e, s) => e :: readEntries headerSize maxSize n s

/-- The records that a tool gets from a file. -/
def logEntries (headerSize maxSize : ℕ) (file : List Byte) : List (List Byte) :=
  readEntries headerSize maxSize file.length ⟨file, false⟩

/-- How `nextEntry` tells records apart. -/
def logFraming (headerSize maxSize : ℕ) (h : 0 < headerSize) : Framing Byte where
  head := headerSize
  head_pos := h
  size header :=
    if (maxSize : ℤ) < headerLength header ∨ headerLength header < headerSize then none
    else some (headerLength header).toNat

/-- A record that says how long it is and fits into a buffer. -/
structure LogEntry (headerSize maxSize : ℕ) (e : List Byte) : Prop where
  header : headerSize ≤ e.length
  fits : e.length ≤ maxSize
  length : headerLength e = e.length

/-- No record can be taken. -/
def LogEnd (headerSize maxSize : ℕ) (rest : List Byte) : Prop :=
  rest.length < headerSize ∨ (maxSize : ℤ) < headerLength rest ∨
    headerLength rest < headerSize ∨ (rest.length : ℤ) < headerLength rest

section Reading

variable {headerSize maxSize : ℕ} {e file : List Byte} {es : List (List Byte)}

theorem headerLength_take (h : 12 ≤ headerSize) (bs : List Byte) :
    headerLength (bs.take headerSize) = headerLength bs := by
  have hget : ∀ i, i < 12 → (bs.take headerSize).getD i 0 = bs.getD i 0 := by
    intro i hi
    rw [List.getD_eq_getElem?_getD, List.getD_eq_getElem?_getD, List.getElem?_take_of_lt (by omega)]
  unfold headerLength le32At
  rw [hget _ (by decide), hget _ (by decide), hget _ (by decide), hget _ (by decide)]

theorem framed_iff (h : 12 ≤ headerSize) :
    (logFraming headerSize maxSize (by omega)).Framed e ↔ LogEntry headerSize maxSize e := by
  constructor
  · rintro ⟨hhead, hsize⟩
    simp only [logFraming, headerLength_take h] at hhead hsize
    split_ifs at hsize with hbad
    have hlen := Option.some.inj hsize
    exact ⟨hhead, by omega, by omega⟩
  · rintro ⟨hhead, hfits, hlen⟩
    refine ⟨hhead, ?_⟩
    simp only [logFraming, headerLength_take h, hlen]
    rw [if_neg (by omega), Int.toNat_natCast]

theorem nextEntry_eq (h : 12 ≤ headerSize) (maxSize : ℕ) (bs : List Byte) :
    match (logFraming headerSize maxSize (by omega)).read bs with
    | none => (nextEntry headerSize maxSize ⟨bs, false⟩).1 = none
    | some (e, rest) => nextEntry headerSize maxSize ⟨bs, false⟩ = (some e, ⟨rest, false⟩) := by
  unfold Framing.read nextEntry LogStream.read
  simp only [logFraming, Bool.false_eq_true, if_false, headerLength_take h]
  by_cases hshort : bs.length < headerSize
  · rw [if_pos hshort, if_pos (.inl (by rw [List.length_take]; omega))]
  have hlen : (bs.take headerSize).length = headerSize :=
    List.length_take_of_le (not_lt.mp hshort)
  rw [if_neg hshort]
  by_cases hbig : (maxSize : ℤ) < headerLength bs
  · rw [if_pos (.inl hbig), if_pos (.inr hbig)]
    rfl
  rw [if_neg (show ¬((bs.take headerSize).length ≠ headerSize ∨ _) by
    rintro (hne | hbig')
    · exact hne hlen
    · exact hbig hbig')]
  by_cases hsmall : headerLength bs < headerSize
  · rw [if_pos (.inr hsmall), if_pos hsmall]
    rfl
  rw [if_neg (not_or.mpr ⟨hbig, hsmall⟩), if_neg hsmall, Option.bind_some]
  -- the length in the header, as a number of bytes
  obtain ⟨n, hn⟩ := Int.eq_ofNat_of_zero_le (show 0 ≤ headerLength bs by omega)
  have hcount : ((n : ℤ) - headerSize).toNat = n - headerSize := by omega
  have hle : headerSize ≤ n := by omega
  have hdrop : (bs.drop headerSize).length = bs.length - headerSize := List.length_drop
  simp only [decide_eq_false hshort, Bool.false_eq_true, if_false, hn, hcount, Int.toNat_natCast]
  by_cases hcut : bs.length < n
  · rw [if_pos (Or.inr hcut), if_pos (by rw [List.length_take]; omega)]
  · rw [if_neg (show ¬(n < headerSize ∨ bs.length < n) by omega),
      if_neg (by rw [List.length_take]; omega)]
    have hjoin : bs.take headerSize ++ (bs.drop headerSize).take (n - headerSize) = bs.take n := by
      rw [← List.take_add, Nat.add_sub_cancel' hle]
    have hfailed : decide ((bs.drop headerSize).length < n - headerSize) = false :=
      decide_eq_false (by omega)
    simp only [hjoin, hfailed, List.drop_drop, Nat.add_sub_cancel' hle]

theorem readEntries_eq (h : 12 ≤ headerSize) (n : ℕ) (bs : List Byte) :
    readEntries headerSize maxSize n ⟨bs, false⟩ =
      (logFraming headerSize maxSize (by omega)).readAll n bs := by
  induction n generalizing bs with
  | zero => rfl
  | succ n ih =>
    have hnext := nextEntry_eq h maxSize bs
    unfold readEntries Framing.readAll
    cases hread : (logFraming headerSize maxSize (by omega)).read bs with
    | none =>
      rw [hread] at hnext
      rcases hentry : nextEntry headerSize maxSize ⟨bs, false⟩ with ⟨e, s⟩
      rw [hentry] at hnext
      obtain rfl : e = none := hnext
      rfl
    | some r =>
      obtain ⟨e, rest⟩ := r
      rw [hread] at hnext
      rw [show nextEntry headerSize maxSize ⟨bs, false⟩ = _ from hnext]
      exact congrArg _ (ih rest)

theorem logEntries_eq (h : 12 ≤ headerSize) (file : List Byte) :
    logEntries headerSize maxSize file =
      (logFraming headerSize maxSize (by omega)).entries file :=
  readEntries_eq h file.length file

theorem read_eq_none_iff (h : 12 ≤ headerSize) (rest : List Byte) :
    (logFraming headerSize maxSize (by omega)).read rest = none ↔
      LogEnd headerSize maxSize rest := by
  unfold LogEnd
  rw [Framing.read_eq_none]
  simp only [logFraming, headerLength_take h]
  by_cases hbad : (maxSize : ℤ) < headerLength rest ∨ headerLength rest < headerSize
  · simp only [if_pos hbad]
    exact ⟨fun _ => .inr (hbad.imp_right .inl), fun _ => .inr nofun⟩
  · simp only [if_neg hbad, Option.some.injEq, forall_eq']
    omega

/-- The records that a tool reads are the beginning of its file, each as long as it says, and they
go on to the first place where no whole record of the size of the buffer stands. -/
theorem logEntries_iff (h : 12 ≤ headerSize) :
    logEntries headerSize maxSize file = es ↔
      ∃ rest, file = es.flatten ++ rest ∧ (∀ e ∈ es, LogEntry headerSize maxSize e) ∧
        LogEnd headerSize maxSize rest := by
  rw [logEntries_eq h, Framing.entries_iff]
  simp only [framed_iff h, read_eq_none_iff h]

/-- A header without data, as it is on a 32-bit machine. -/
def bareRecord : List Byte := [0xfe, 0xca, 0, 0, 3, 0, 0, 0, 28, 0, 0, 0] ++ List.replicate 16 0

theorem logEntry_bareRecord : LogEntry 28 10240 bareRecord := ⟨by decide, by decide, by decide⟩

theorem logEntries_bareRecord : logEntries 28 10240 (bareRecord ++ [0xfe, 0xca]) = [bareRecord] :=
  (logEntries_iff (by decide)).mpr
    ⟨[0xfe, 0xca], rfl, List.forall_mem_singleton.mpr logEntry_bareRecord, .inl (by decide)⟩

/-- Of a log that was cut off, a tool reads the records that were written in full. -/
theorem logEntries_take_flatten (h : 12 ≤ headerSize)
    (hes : ∀ e ∈ es, LogEntry headerSize maxSize e) (n : ℕ) :
    logEntries headerSize maxSize (es.flatten.take n) = Framing.within n es := by
  rw [logEntries_eq h]
  exact Framing.entries_take_flatten (fun e he => (framed_iff h).mpr (hes e he)) n

theorem logEntries_take_bareRecord :
    logEntries 28 10240 ([bareRecord, bareRecord].flatten.take 55) =
      Framing.within 55 [bareRecord, bareRecord] :=
  logEntries_take_flatten (by decide)
    (List.forall_mem_cons.mpr
      ⟨logEntry_bareRecord, List.forall_mem_singleton.mpr logEntry_bareRecord⟩) 55

/-- A tool with a smaller buffer reads the records in front of the first one it has no room for. -/
theorem logEntries_buffer {small : ℕ} (h : 12 ≤ headerSize) (hle : small ≤ maxSize)
    (file : List Byte) :
    logEntries headerSize small file =
      (logEntries headerSize maxSize file).takeWhile fun e => e.length ≤ small := by
  rw [logEntries_eq h, logEntries_eq h]
  obtain ⟨rest, hfile, hes, hend⟩ :=
    (logFraming headerSize maxSize (by omega)).entries_iff.mp (rfl : _ = Framing.entries _ file)
  generalize Framing.entries _ file = es at hfile hes
  rw [read_eq_none_iff h] at hend
  refine Framing.entries_iff.mpr
    ⟨(es.dropWhile fun e => e.length ≤ small).flatten ++ rest, ?_, ?_, ?_⟩
  · rw [← List.append_assoc, ← List.flatten_append, List.takeWhile_append_dropWhile]
    exact hfile
  · intro e he
    obtain ⟨hhead, -, hlen⟩ := (framed_iff h).mp (hes e ((List.takeWhile_prefix _).subset he))
    have hsmall := List.mem_takeWhile_imp he
    exact (framed_iff h).mpr ⟨hhead, by simpa using hsmall, hlen⟩
  · rw [read_eq_none_iff h]
    cases hdrop : es.dropWhile fun e => e.length ≤ small with
    | nil =>
      unfold LogEnd at hend ⊢
      rw [List.flatten_nil, List.nil_append]
      omega
    | cons e tail =>
      have hmem : e ∈ es := (List.dropWhile_suffix _).subset (hdrop ▸ List.mem_cons_self)
      obtain ⟨hhead, -, hlen⟩ := (framed_iff h).mp (hes e hmem)
      have hbig : ¬e.length ≤ small := by
        simpa [hdrop] using List.head?_dropWhile_not (fun e => decide (e.length ≤ small)) es
      refine .inr (.inl ?_)
      rw [List.flatten_cons, List.append_assoc, ← headerLength_take h,
        List.take_append_of_le_length hhead, headerLength_take h, hlen]
      omega

theorem logEntries_buffer_bareRecord :
    logEntries 28 10240 (bareRecord ++ bareRecord) =
      (logEntries 28 32768 (bareRecord ++ bareRecord)).takeWhile fun e => e.length ≤ 10240 :=
  logEntries_buffer (by decide) (by decide) (bareRecord ++ bareRecord)

end Reading

end Modelnet.Tools
