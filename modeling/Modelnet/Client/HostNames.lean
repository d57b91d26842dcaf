import Mathlib.Algebra.Group.Nat.Defs
import Mathlib.Data.List.TakeWhile
import Mathlib.Data.Nat.Notation

/-!
# The hosts file

`libipaddr.c` looks the names of virtual nodes up in a file with a line for each name: the name, its
address, and the machine that it is on. `fgets` reads the file in lines of at most 1024 bytes,
`sscanf` takes a line apart. A line that `sscanf` cannot take apart, or whose fields do not fit into
the buffers, has no result here (`none`): the code would then print and free a pointer that it never
sets, or write beyond a buffer.
-/

namespace Modelnet.Client

/-- A C string: its bytes, without the NUL at the end. -/
abbrev CString : Type := List (BitVec 8)

/-- A character constant. -/
def byte (c : Char) : BitVec 8 := BitVec.ofNat 8 c.toNat

def isspace (c : BitVec 8) : Bool := c == byte ' ' || (9 ≤ c.toNat && c.toNat ≤ 13)

def isdigit (c : BitVec 8) : Bool := 48 ≤ c.toNat && c.toNat ≤ 57

def makeIp (a b c d : BitVec 32) : BitVec 32 :=
  ((a &&& 0xff) <<< 24) ||| ((b &&& 0xff) <<< 16) ||| ((c &&& 0xff) <<< 8) ||| (d &&& 0xff)

/-- `htonl`, on a machine with the low byte first. -/
def htonl (x : BitVec 32) : BitVec 32 :=
  (x <<< 24) ||| ((x <<< 8) &&& 0xff0000) ||| ((x >>> 8) &&& 0xff00) ||| (x >>> 24)

def nameHashSlots : ℕ := 139

/-- `hash_string`. The characters are signed. -/
def hashString (str : CString) : BitVec 32 :=
  str.foldl (fun h c => (h <<< 5) - h + c.signExtend 32) 0

/-- `hash_string(vname) % NAME_HASH_SLOTS`. -/
def slotOf (vname : CString) : Fin nameHashSlots :=
  ⟨(hashString vname).toNat % nameHashSlots, Nat.mod_lt _ (by decide)⟩

/-- What a line of the file says. The address is an `unsigned long` in network order. -/
structure HostEntry where
  vname : CString
  ip : ℕ
  mname : CString
  deriving DecidableEq

/-! ## Reading lines -/

/-- What `fgets` reads into `n + 1` bytes, and what is left of the file. -/
def fgets : ℕ → List (BitVec 8) → List (BitVec 8) × List (BitVec 8)
  | 0, file => ([], file)
  | _ + 1, [] => ([], [])
  | n + 1, c :: file =>
    if c = byte '\n' then ([c], file) else (c :: (fgets n file).1, (fgets n file).2)

/-- The lines that `n` calls of `fgets(line, 1025, hosts)` read. -/
def fgetsLoop : ℕ → List (BitVec 8) → List (List (BitVec 8))
  | 0, _ => []
  | _ + 1, [] => []
  | n + 1, c :: file => (fgets 1024 (c :: file)).1 :: fgetsLoop n (fgets 1024 (c :: file)).2

/-- All lines of the file, as the strings that the buffer then holds. -/
def fileLines (file : List (BitVec 8)) : List CString :=
  (fgetsLoop file.length file).map fun line => line.takeWhile (· ≠ 0)

/-! ## Taking a line apart -/

/-- `%s` into 256 bytes. -/
def scanWord (s : CString) : Option (CString × CString) :=
  let s := s.dropWhile isspace
  let word := s.takeWhile fun c => !isspace c
  if word = [] ∨ 256 ≤ word.length then none
  else some (word, s.dropWhile fun c => !isspace c)

def scanDigits (neg : Bool) (s : CString) : Option (BitVec 32 × CString) :=
  let digits := s.takeWhile isdigit
  let n := digits.foldl (fun n c => 10 * n + (c.toNat - 48)) 0
  if digits = [] ∨ 2 ^ 32 ≤ n then none
  else some (if neg then -BitVec.ofNat 32 n else BitVec.ofNat 32 n, s.dropWhile isdigit)

/-- `%u`. -/
def scanUnsigned (s : CString) : Option (BitVec 32 × CString) :=
  match s.dropWhile isspace with
  | [] => none
  | c :: rest =>
    if c = byte '-' then scanDigits true rest
    else if c = byte '+' then scanDigits false rest
    else scanDigits false (c :: rest)

/-- A character of the format that is not white space. -/
def scanByte (x : Char) : CString → Option CString
  | [] => none
  | c :: rest => if c = byte x then some rest else none

/-- `sscanf(line, "%s %u.%u.%u.%u # on %s", ...)`, with the address that the fields make. -/
def scanLine (line : CString) : Option HostEntry := do
  let (vname, s) ← scanWord line
  let (a, s) ← scanUnsigned s
  let s ← scanByte '.' s
  let (b, s) ← scanUnsigned s
  let s ← scanByte '.' s
  let (c, s) ← scanUnsigned s
  let s ← scanByte '.' s
  let (d, s) ← scanUnsigned s
  let s ← scanByte '#' (s.dropWhile isspace)
  let s ← scanByte 'o' (s.dropWhile isspace)
  let s ← scanByte 'n' s
  let (mname, _) ← scanWord s
  return ⟨vname, (htonl (makeIp a b c d)).toNat, mname⟩

/-- The lines that both look-ups ignore: those that start with a `#` or with white space. -/
def ignored : CString → Bool
  | [] => false
  | c :: _ => c == byte '#' || isspace c

/-- The lines that say something. -/
def hostLines (file : List (BitVec 8)) : List CString :=
  (fileLines file).filter fun line => !ignored line

/-- What a well-formed file says, line by line. -/
def hostEntries (file : List (BitVec 8)) : Option (List HostEntry) :=
  (hostLines file).mapM scanLine

end Modelnet.Client
