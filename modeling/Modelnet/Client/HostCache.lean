import Mathlib.Logic.Function.Basic
import Modelnet.Client.HostNames
import Modelnet.Lib.LinkedLists
import Modelnet.Lib.Run

/-!
# The host-name cache

`libipaddr.c` keeps names that it has found in a hash table with a linked list for each slot. A
look-up goes to the table first, where it moves the entry that it finds to the front of its list, and
then to the hosts file. What is read of the file goes to the table: all of it with the policy
`preload`, the entry that was looked for with `nopreload`, nothing with `disable`.

`fopen` is the file system. A result `none` stands for what has no defined behaviour: a bad pointer,
or a file that cannot be read or has a bad line, where the code prints and frees a pointer that it
never sets. Memory can always be allocated.
-/

namespace Modelnet.Client

/-- `struct name_ip`. Pointers are the numbers of the cells. -/
structure NameIp extends HostEntry where
  next : Option ℕ

/-- The variables of the look-ups, and the cells of the table. -/
structure HostCache where
  hostsfile : Option String
  useMdbHosts : Bool
  useCache : Bool
  cachePreload : Bool
  nameHash : Fin nameHashSlots → Option ℕ
  cells : List NameIp

/-- `init_hostname_cache`, with the value of `MN_HOSTNAME_CACHE`. -/
def initHostnameCache (hostsfile cachePolicy : Option String) : HostCache :=
  let s : HostCache := ⟨hostsfile, false, false, false, fun _ => none, []⟩
  match hostsfile with
  | none => s
  | some _ =>
    let s := { s with useMdbHosts := true }
    let cachePolicy := cachePolicy.getD "default"
    if cachePolicy = "nopreload" then { s with useCache := true, cachePreload := false }
    else if cachePolicy = "preload" then { s with useCache := true, cachePreload := true }
    else if cachePolicy = "disable" then { s with cachePreload := false, useCache := false }
    else if cachePolicy = "default" then { s with useCache := true, cachePreload := true }
    else { s with useCache := true, cachePreload := true }

namespace HostCache

/-- `a->next = p`. -/
def setNext (a : ℕ) (p : Option ℕ) (s : HostCache) : Option HostCache :=
  s.cells[a]?.map fun x => { s with cells := s.cells.set a { x with next := p } }

/-- What both look-ups do with an entry `b` that they have found after `a`. -/
def moveToFront (slot : Fin nameHashSlots) (a : Option ℕ) (b : ℕ) (s : HostCache) :
    Option HostCache :=
  if s.nameHash slot = some b then some s
  else do
    let a ← a
    let x ← s.cells[b]?
    let s ← s.setNext a x.next
    let s ← s.setNext b (s.nameHash slot)
    return { s with nameHash := Function.update s.nameHash slot (some b) }

/-- The loop of `get_name_hash` and of `get_ip_hash` over the list of a slot. -/
def getInSlot (q : HostEntry → Bool) (slot : Fin nameHashSlots) (s : HostCache) :
    Option (Option HostEntry × HostCache) := do
  -- a list has no more entries than there are cells
  match ← searchLinked (fun a => s.cells[a]?) NameIp.next (fun x => q x.toHostEntry)
      s.cells.length none (s.nameHash slot) with
  | none => return (none, s)
  | some (a, b) =>
    let x ← s.cells[b]?
    let s ← s.moveToFront slot a b
    return (some x.toHostEntry, s)

def getNameHash (vname : CString) (s : HostCache) : Option (Option HostEntry × HostCache) :=
  s.getInSlot (fun e => e.vname = vname) (slotOf vname)

def getIpHashLoop (ip : ℕ) :
    List (Fin nameHashSlots) → HostCache → Option (Option HostEntry × HostCache)
  | [], s => some (none, s)
  | slot :: slots, s => do
    let (e, s) ← s.getInSlot (fun e => e.ip = ip) slot
    if e.isSome then return (e, s) else getIpHashLoop ip slots s

def getIpHash (ip : ℕ) (s : HostCache) : Option (Option HostEntry × HostCache) :=
  getIpHashLoop ip (List.finRange nameHashSlots) s

def putNameHash (vname : CString) (ip : ℕ) (mname : CString) (s : HostCache) : HostCache :=
  let slot := slotOf vname
  { s with
    cells := s.cells ++ [⟨⟨vname, ip, mname⟩, s.nameHash slot⟩]
    nameHash := Function.update s.nameHash slot (some s.cells.length) }

/-- The loop of `find_name` and of `find_ip` over the lines of the file. -/
def scanHosts (q : HostEntry → Bool) :
    List CString → Option HostEntry → HostCache → Option (Option HostEntry × HostCache)
  | [], found, s => some (found, s)
  | line :: lines, found, s =>
    if ignored line then scanHosts q lines found s
    else
      match scanLine line with
      | none => none
      | some e =>
        let s := if s.cachePreload then s.putNameHash e.vname e.ip e.mname else s
        if q e then
          if !s.cachePreload then
            some (some e, if s.useCache then s.putNameHash e.vname e.ip e.mname else s)
          else scanHosts q lines (some e) s
        else scanHosts q lines found s

/-- `find_name` and `find_ip`, with what they look for and how they look for it in the table. -/
def lookUp (fopen : String → Option (List (BitVec 8))) (q : HostEntry → Bool)
    (getHash : HostCache → Option (Option HostEntry × HostCache)) (s : HostCache) :
    Option (Option HostEntry × HostCache) :=
  if !s.useMdbHosts then some (none, s)
  else do
    let (e, s) ← if s.useCache then getHash s else some (none, s)
    if e.isSome then return (e, s)
    match s.hostsfile with
    | none => return (none, s)
    | some path =>
      let hosts ← fopen path
      s.scanHosts q (fileLines hosts) none

/-- `find_name`: the address and the machine, if it succeeds. -/
def findName (fopen : String → Option (List (BitVec 8))) (vname : CString) (s : HostCache) :
    Option (Option (ℕ × CString) × HostCache) :=
  (s.lookUp fopen (fun e => e.vname = vname) (getNameHash vname)).map
    fun r => (r.1.map fun e => (e.ip, e.mname), r.2)

/-- `find_ip`: the name and the machine, if it succeeds. -/
def findIp (fopen : String → Option (List (BitVec 8))) (ip : ℕ) (s : HostCache) :
    Option (Option (CString × CString) × HostCache) :=
  (s.lookUp fopen (fun e => e.ip = ip) (getIpHash ip)).map
    fun r => (r.1.map fun e => (e.vname, e.mname), r.2)

end HostCache

inductive HostCall where
  | findName (vname : CString)
  | findIp (ip : ℕ)

def HostCache.call (fopen : String → Option (List (BitVec 8))) (s : HostCache) :
    HostCall → Option HostCache
  | .findName vname => (s.findName fopen vname).map Prod.snd
  | .findIp ip => (s.findIp fopen ip).map Prod.snd

end Modelnet.Client
