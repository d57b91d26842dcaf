import Modelnet.Client.NameLookups

/-!
# Look-ups by address

Several names may have one address. What `find_ip` then returns is the first of them in the file
where the file is read and nothing else happens, the last of them where the file is loaded into the
table (`found` does not stop the loop), and otherwise the first of them in the lists of the table,
slot after slot. So the answer is the same at all times and under every policy exactly for the
addresses that one line has at most.
-/

namespace Modelnet.Client

open HostCache

variable {entries : List HostEntry} {fopen : String → Option (List (BitVec 8))} {path : String}
  {hosts : List (BitVec 8)} {s : HostCache} {e : HostEntry} {ip : ℕ}

/-- The name that `find_ip` returns after the calls, if it succeeds. -/
def reverseName (fopen : String → Option (List (BitVec 8))) (path : String)
    (cachePolicy : Option String) (calls : List HostCall) (ip : ℕ) : Option (Option CString) := do
  let s ← PartialRun.run (call fopen) (initHostnameCache (some path) cachePolicy) calls
  let r ← s.findIp fopen ip
  return r.1.map Prod.fst

/-- `find_ip` always returns, and it returns the same name each time and under every policy. -/
structure ReverseStable (fopen : String → Option (List (BitVec 8))) (path : String) (ip : ℕ) :
    Prop where
  returns : ∀ cachePolicy calls, (reverseName fopen path cachePolicy calls ip).isSome = true
  eachTime : ∀ cachePolicy calls more,
    reverseName fopen path cachePolicy (calls ++ .findIp ip :: more) ip =
      reverseName fopen path cachePolicy calls ip
  eachPolicy : ∀ cachePolicy cachePolicy' calls,
    reverseName fopen path cachePolicy calls ip = reverseName fopen path cachePolicy' calls ip

/-- What `find_ip` answers is a line with the address, or there is none. -/
theorem reverseName_answers (hfile : fopen path = some hosts)
    (hhosts : hostEntries hosts = some entries) (cachePolicy : Option String)
    (calls : List HostCall) (ip : ℕ) : ∃ r, Answers (fun e => e.ip = ip) entries r ∧
      reverseName fopen path cachePolicy calls ip = some (r.map HostEntry.vname) := by
  obtain ⟨s, hrun, hready⟩ := run_ready hfile hhosts cachePolicy calls
  obtain ⟨r, hr, -, hanswers⟩ :=
    lookUp_answers hfile hhosts hready (getIpHash_finds hready.cached ip)
  refine ⟨r.1, hanswers, ?_⟩
  simp only [reverseName, hrun, findIp, hr, Option.bind_eq_bind, Option.bind_some, Option.map_some]
  cases r.1 <;> rfl

theorem answers_eq (hone : ∀ d ∈ entries, ∀ e ∈ entries, d.ip = ip → e.ip = ip → d = e)
    {r r' : Option HostEntry} (h : Answers (fun e => e.ip = ip) entries r)
    (h' : Answers (fun e => e.ip = ip) entries r') : r = r' := by
  cases r with
  | none =>
    cases r' with
    | none => rfl
    | some e => exact absurd h'.2 (by simpa using h e h'.1)
  | some d =>
    cases r' with
    | none => exact absurd h.2 (by simpa using h' d h.1)
    | some e =>
      rw [hone d h.1 e h'.1 (of_decide_eq_true h.2) (of_decide_eq_true h'.2)]

theorem reverseStable_of_unique (hfile : fopen path = some hosts)
    (hhosts : hostEntries hosts = some entries)
    (hone : ∀ d ∈ entries, ∀ e ∈ entries, d.ip = ip → e.ip = ip → d = e) :
    ReverseStable fopen path ip := by
  have hsame : ∀ cachePolicy calls cachePolicy' calls',
      reverseName fopen path cachePolicy calls ip =
        reverseName fopen path cachePolicy' calls' ip := by
    intro cachePolicy calls cachePolicy' calls'
    obtain ⟨r, hr, heq⟩ := reverseName_answers hfile hhosts cachePolicy calls ip
    obtain ⟨r', hr', heq'⟩ := reverseName_answers hfile hhosts cachePolicy' calls' ip
    rw [heq, heq', answers_eq hone hr hr']
  refine ⟨?_, fun _ _ _ => hsame _ _ _ _, fun _ _ _ => hsame _ _ _ _⟩
  intro cachePolicy calls
  obtain ⟨r, -, heq⟩ := reverseName_answers hfile hhosts cachePolicy calls ip
  rw [heq]
  rfl

/-! ## Two names with one address -/

/-- With distinct names, the line of a name is the first match for this name. -/
theorem find?_vname (hnames : (entries.map HostEntry.vname).Nodup) (he : e ∈ entries) :
    entries.find? (fun d => d.vname = e.vname) = some e := by
  cases hfind : entries.find? (fun d => d.vname = e.vname) with
  | none =>
    have hno := List.find?_eq_none.mp hfind e he
    exact absurd (decide_eq_true rfl) hno
  | some d =>
    have hd : d.vname = e.vname := by simpa using List.find?_some hfind
    rw [List.inj_on_of_nodup_map hnames (List.mem_of_find?_eq_some hfind) he hd]

/-- Without a cache, `find_ip` returns the first name in the file that has the address. -/
theorem reverseName_disable (hfile : fopen path = some hosts)
    (hhosts : hostEntries hosts = some entries) (vname : CString) (ip : ℕ) :
    reverseName fopen path (some "disable") [.findName vname] ip =
      some ((entries.find? fun e => e.ip = ip).map HostEntry.vname) := by
  have hready := ready_init path (some "disable") entries
  set s := initHostnameCache (some path) (some "disable") with hs
  have huse : s.useCache = false := rfl
  have hpre : s.cachePreload = false := rfl
  -- every look-up reads the file and leaves the table empty
  have hread : ∀ (q : HostEntry → Bool) getHash,
      s.lookUp fopen q getHash = some (entries.find? q, s) := by
    intro q getHash
    have hmiss : s.useCache = true → getHash s = some (none, s) := by simp [huse]
    rw [lookUp_of_miss hfile hhosts hready hmiss, scanEntries_noPreload hpre]
    cases entries.find? q with
    | none => rfl
    | some e => simp [huse]
  have hrun : PartialRun.run (call fopen) s [.findName vname] = some s := by
    simp [PartialRun.run_cons, call, findName, hread]
  simp [reverseName, ← hs, hrun, findIp, hread, Function.comp_def]

/-- Where only what has been looked up is cached, the name that has just been looked up is the
answer for its address. -/
theorem reverseName_nopreload (hfile : fopen path = some hosts)
    (hhosts : hostEntries hosts = some entries) (hnames : (entries.map HostEntry.vname).Nodup)
    (he : e ∈ entries) :
    reverseName fopen path (some "nopreload") [.findName e.vname] e.ip = some (some e.vname) := by
  have hready := ready_init path (some "nopreload")
  set s := initHostnameCache (some path) (some "nopreload") with hs
  have huse : s.useCache = true := rfl
  have hpre : s.cachePreload = false := rfl
  -- the table is empty at first
  have hmiss : s.getNameHash e.vname = some (none, s) := by
    obtain ⟨⟨_ | d, s'⟩, hr, hfinds⟩ := getNameHash_finds (hready []).cached e.vname
    · rw [hr, hfinds.1]
    · obtain ⟨-, -, slot, -, hd⟩ := hfinds
      exact absurd ((hready []).cached.mem slot d hd) List.not_mem_nil
  set t := s.putNameHash e.vname e.ip e.mname with ht
  have hfirst : s.lookUp fopen (fun d => d.vname = e.vname) (getNameHash e.vname) =
      some (some e, t) := by
    rw [lookUp_of_miss hfile hhosts (hready entries) fun _ => hmiss, scanEntries_noPreload hpre,
      find?_vname hnames he]
    simp [huse, ht]
  have hrun : PartialRun.run (call fopen) s [.findName e.vname] = some t := by
    simp [PartialRun.run_cons, call, findName, hfirst]
  -- then it has this one entry
  have hcached : Cached [e] t := (hready [e]).cached.putNameHash List.mem_cons_self
  have hholds : t.Holds (slotOf e.vname) e :=
    (holds_putNameHash ((hready [e]).cached.chain _)).mpr (Or.inr ⟨rfl, rfl⟩)
  have hsecond : ∃ s', t.lookUp fopen (fun d => d.ip = e.ip) (getIpHash e.ip) =
      some (some e, s') := by
    obtain ⟨⟨_ | d, s'⟩, hr, hfinds⟩ := getIpHash_finds hcached e.ip
    · have hno := hfinds.2 (slotOf e.vname) trivial e hholds
      exact absurd hno (by simp)
    · obtain ⟨-, -, slot, -, hd⟩ := hfinds
      obtain rfl := List.mem_singleton.mp (hcached.mem slot d hd)
      exact ⟨s', lookUp_of_hit ((hready entries).of_samePolicy
        (samePolicy_putNameHash _ _ _) ((hready entries).cached.putNameHash he)) huse hr⟩
  obtain ⟨s', hsecond⟩ := hsecond
  simp [reverseName, ← hs, hrun, findIp, hsecond]

/-- **Reverse look-ups are stable exactly for the addresses of one name.** -/
theorem reverseStable_iff (hfile : fopen path = some hosts)
    (hhosts : hostEntries hosts = some entries) (hnames : (entries.map HostEntry.vname).Nodup)
    (ip : ℕ) : ReverseStable fopen path ip ↔
      ∀ d ∈ entries, ∀ e ∈ entries, d.ip = ip → e.ip = ip → d = e := by
  constructor
  · -- a line with the address is the first of the file, since looking its name up makes it the answer
    intro h
    have hfirst : ∀ e ∈ entries, e.ip = ip →
        (entries.find? fun e => e.ip = ip).map HostEntry.vname = some e.vname := by
      intro e he heq
      subst heq
      have hpolicy := h.eachPolicy (some "disable") (some "nopreload") [.findName e.vname]
      rw [reverseName_disable hfile hhosts, reverseName_nopreload hfile hhosts hnames he] at hpolicy
      exact Option.some.inj hpolicy
    intro d hd e he hdip heip
    have hvname := Option.some.inj ((hfirst d hd hdip).symm.trans (hfirst e he heip))
    exact List.inj_on_of_nodup_map hnames hd he hvname
  · exact reverseStable_of_unique hfile hhosts

theorem reverseStable_twoNames : ReverseStable (oneFile twoNames) "hosts" 0x0100000a := by
  have hfile : oneFile twoNames "hosts" = some twoNames := rfl
  have hhosts : hostEntries twoNames = some
      [⟨[byte 'a'], 0x0100000a, [byte 'h']⟩, ⟨[byte 'b'], 0x0200000a, [byte 'g']⟩] := by
    decide +kernel
  exact (reverseStable_iff hfile hhosts (by decide) 0x0100000a).mpr (by decide)

/-- The lines `a 10.0.0.1 # on h` and `b 10.0.0.1 # on h`. -/
def oneAddress : List (BitVec 8) :=
  ['a', ' ', '1', '0', '.', '0', '.', '0', '.', '1', ' ', '#', ' ', 'o', 'n', ' ', 'h', '\n',
    'b', ' ', '1', '0', '.', '0', '.', '0', '.', '1', ' ', '#', ' ', 'o', 'n', ' ', 'h', '\n'].map byte

/-- After `find_name("b")`, the answer for the address of both is `a` without a cache, and `b` where
`b` is all that the cache has. -/
theorem not_reverseStable_oneAddress :
    ∃ entries, hostEntries oneAddress = some entries ∧ (entries.map HostEntry.vname).Nodup ∧
      ¬ ReverseStable (oneFile oneAddress) "hosts" 0x0100000a := by
  have hhosts : hostEntries oneAddress = some
      [⟨[byte 'a'], 0x0100000a, [byte 'h']⟩, ⟨[byte 'b'], 0x0100000a, [byte 'h']⟩] := by
    decide +kernel
  refine ⟨_, hhosts, by decide, fun h => ?_⟩
  have hdisable : reverseName (oneFile oneAddress) "hosts" (some "disable") [.findName [byte 'b']]
      0x0100000a = some (some [byte 'a']) := by decide +kernel
  have hnopreload : reverseName (oneFile oneAddress) "hosts" (some "nopreload")
      [.findName [byte 'b']] 0x0100000a = some (some [byte 'b']) := by decide +kernel
  have hsame := h.eachPolicy (some "disable") (some "nopreload") [.findName [byte 'b']]
  rw [hdisable, hnopreload] at hsame
  exact absurd hsame (by decide)

end Modelnet.Client
