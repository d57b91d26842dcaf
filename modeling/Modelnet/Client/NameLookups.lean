import Modelnet.Client.CachedHosts

/-!
# Look-ups by name

Reading the file is a loop over its lines (`HostCache.scanEntries`), which gives the first match, or
the last one while the file is being loaded into the table. With distinct names both are the only
match, and an entry of the table is a line of the file. So `find_name` finds what the file says,
whatever has been looked up before and under every policy.
-/

namespace Modelnet.Client

namespace HostCache

variable {s s' : HostCache} {entries rest : List HostEntry} {found : Option HostEntry}
  {q : HostEntry → Bool} {fopen : String → Option (List (BitVec 8))} {path : String}
  {hosts : List (BitVec 8)}

/-! ## Reading the file -/

/-- The loop over the lines of the file that say something. -/
def scanEntries (q : HostEntry → Bool) :
    List HostEntry → Option HostEntry → HostCache → Option HostEntry × HostCache
  | [], found, s => (found, s)
  | e :: rest, found, s =>
    if s.cachePreload then
      scanEntries q rest (if q e then some e else found) (s.putNameHash e.vname e.ip e.mname)
    else if q e then (some e, if s.useCache then s.putNameHash e.vname e.ip e.mname else s)
    else scanEntries q rest found s

/-- **The loops of the source are the loop over what the lines say.** -/
theorem scanHosts_eq {lines : List CString}
    (h : (lines.filter fun line => !ignored line).mapM scanLine = some rest) :
    s.scanHosts q lines found = some (scanEntries q rest found s) := by
  induction lines generalizing rest found s with
  | nil =>
    cases h
    rfl
  | cons line lines ih =>
    unfold scanHosts
    cases hline : ignored line with
    | true =>
      rw [List.filter_cons_of_neg (by simp [hline])] at h
      exact ih h
    | false =>
      rw [List.filter_cons_of_pos (by simp [hline]), List.mapM_cons] at h
      obtain ⟨e, he, h⟩ := Option.bind_eq_some_iff.mp h
      obtain ⟨rest', hrest', h⟩ := Option.bind_eq_some_iff.mp h
      cases h
      rw [if_neg Bool.false_ne_true, he]
      unfold scanEntries
      cases hpre : s.cachePreload <;> cases hq : q e <;>
        simp [hpre, hq, ih hrest', putNameHash]

/-- Without preloading, the first match is found. It goes to the table, if there is one. -/
theorem scanEntries_noPreload (hs : s.cachePreload = false) :
    scanEntries q rest found s =
      match rest.find? q with
      | none => (found, s)
      | some e => (some e, if s.useCache then s.putNameHash e.vname e.ip e.mname else s) := by
  induction rest with
  | nil => rfl
  | cons e rest ih =>
    unfold scanEntries
    rw [hs, if_neg Bool.false_ne_true]
    cases hq : q e with
    | true => rw [List.find?_cons_of_pos hq, if_pos rfl]
    | false => rw [List.find?_cons_of_neg (by simp [hq]), if_neg Bool.false_ne_true, ih]

/-- While the file is loaded into the table, the last match is found. -/
theorem scanEntries_preload (hs : s.cachePreload = true) :
    (scanEntries q rest found s).1 = (rest.findRev? q).or found := by
  induction rest generalizing found s with
  | nil => rfl
  | cons e rest ih =>
    have hput : (s.putNameHash e.vname e.ip e.mname).cachePreload = true := hs
    unfold scanEntries
    rw [hs, if_pos rfl, ih hput, List.findRev?]
    cases rest.findRev? q <;> cases q e <;> rfl

theorem cached_scanEntries (q : HostEntry → Bool) (found : Option HostEntry)
    (h : Cached entries s) (hrest : ∀ e ∈ rest, e ∈ entries) :
    SamePolicy s (scanEntries q rest found s).2 ∧
      Cached entries (scanEntries q rest found s).2 := by
  induction rest generalizing found s with
  | nil => exact ⟨SamePolicy.refl s, h⟩
  | cons e rest ih =>
    have he : e ∈ entries := hrest e List.mem_cons_self
    have hrest' : ∀ d ∈ rest, d ∈ entries := fun d hd => hrest d (List.mem_cons_of_mem e hd)
    have hput := samePolicy_putNameHash (s := s) e.vname e.ip e.mname
    unfold scanEntries
    split
    · obtain ⟨hpolicy, hcached⟩ := ih _ (h.putNameHash he) hrest'
      exact ⟨hput.trans hpolicy, hcached⟩
    · split
      · split
        · exact ⟨hput, h.putNameHash he⟩
        · exact ⟨SamePolicy.refl s, h⟩
      · exact ih _ h hrest'

/-- What may be found: a line that is looked for, or that there is none. -/
def Answers (q : HostEntry → Bool) (entries : List HostEntry) : Option HostEntry → Prop
  | some e => e ∈ entries ∧ q e = true
  | none => ∀ e ∈ entries, q e = false

/-- **Reading the file answers what is asked**, under every policy. -/
theorem answers_scanEntries : Answers q entries (scanEntries q entries none s).1 := by
  cases hs : s.cachePreload with
  | false =>
    rw [scanEntries_noPreload hs]
    cases hfind : entries.find? q with
    | none => exact fun e he => by simpa using List.find?_eq_none.mp hfind e he
    | some e => exact ⟨List.mem_of_find?_eq_some hfind, List.find?_some hfind⟩
  | true =>
    rw [scanEntries_preload hs, Option.or_none, List.findRev?_eq_find?_reverse]
    cases hfind : entries.reverse.find? q with
    | none => exact fun e he => by simpa using List.find?_eq_none.mp hfind e (by simpa using he)
    | some e => exact ⟨by simpa using List.mem_of_find?_eq_some hfind, List.find?_some hfind⟩

/-- With distinct names, an answer to a question for a name is the line of that name. -/
theorem Answers.name_iff (hnames : (entries.map HostEntry.vname).Nodup) {vname : CString}
    {r : Option HostEntry} (h : Answers (fun e => e.vname = vname) entries r) (ip : ℕ)
    (mname : CString) : (r.map fun e => (e.ip, e.mname)) = some (ip, mname) ↔
      (⟨vname, ip, mname⟩ : HostEntry) ∈ entries := by
  cases r with
  | none =>
    constructor
    · rintro ⟨⟩
    · intro hmem
      exact absurd (h _ hmem) (by simp)
  | some e =>
    obtain ⟨he, hvname⟩ := h
    have hvname : e.vname = vname := of_decide_eq_true hvname
    constructor
    · intro heq
      cases heq
      exact hvname ▸ he
    · intro hmem
      have heq : e = ⟨vname, ip, mname⟩ := List.inj_on_of_nodup_map hnames he hmem hvname
      rw [heq]
      rfl

/-! ## One look-up -/

/-- The library has a hosts file, and the table comes from its lines. -/
structure Ready (path : String) (entries : List HostEntry) (s : HostCache) : Prop where
  hostsfile : s.hostsfile = some path
  useMdbHosts : s.useMdbHosts = true
  cached : Cached entries s

theorem Ready.of_samePolicy (h : Ready path entries s) (hpolicy : SamePolicy s s')
    (hcached : Cached entries s') : Ready path entries s' where
  hostsfile := hpolicy.hostsfile.trans h.hostsfile
  useMdbHosts := hpolicy.useMdbHosts.trans h.useMdbHosts
  cached := hcached

/-- The library starts with an empty table, whatever the policy is. -/
theorem ready_init (path : String) (cachePolicy : Option String) (entries : List HostEntry) :
    Ready path entries (initHostnameCache (some path) cachePolicy) := by
  have hinit : (initHostnameCache (some path) cachePolicy).hostsfile = some path ∧
      (initHostnameCache (some path) cachePolicy).useMdbHosts = true ∧
      (initHostnameCache (some path) cachePolicy).nameHash = fun _ => none := by
    unfold initHostnameCache
    dsimp only
    split_ifs <;> exact ⟨rfl, rfl, rfl⟩
  exact ⟨hinit.1, hinit.2.1, cached_empty fun slot => congrFun hinit.2.2 slot⟩

variable {getHash : HostCache → Option (Option HostEntry × HostCache)}
  {slots : Set (Fin nameHashSlots)}

theorem lookUp_of_hit (h : Ready path entries s) (huse : s.useCache = true) {e : HostEntry}
    (hget : getHash s = some (some e, s')) : s.lookUp fopen q getHash = some (some e, s') := by
  simp [lookUp, h.useMdbHosts, huse, hget]

theorem lookUp_of_miss (hfile : fopen path = some hosts)
    (hhosts : hostEntries hosts = some entries) (h : Ready path entries s)
    (hget : s.useCache = true → getHash s = some (none, s)) :
    s.lookUp fopen q getHash = some (scanEntries q entries none s) := by
  have hscan : s.scanHosts q (fileLines hosts) none = some (scanEntries q entries none s) :=
    scanHosts_eq hhosts
  cases huse : s.useCache with
  | false => simp [lookUp, h.useMdbHosts, h.hostsfile, huse, hfile, hscan]
  | true => simp [lookUp, h.useMdbHosts, h.hostsfile, huse, hget huse, hfile, hscan]

/-- **One look-up** answers what is asked, from the table or from the file. -/
theorem lookUp_answers (hfile : fopen path = some hosts)
    (hhosts : hostEntries hosts = some entries) (h : Ready path entries s)
    (hget : ∃ r, getHash s = some r ∧ s.Finds slots q r) :
    ∃ r, s.lookUp fopen q getHash = some r ∧ Ready path entries r.2 ∧ Answers q entries r.1 := by
  obtain ⟨⟨e, s'⟩, hget, hfinds⟩ := hget
  have hread : (s.useCache = true → getHash s = some (none, s)) →
      ∃ r, s.lookUp fopen q getHash = some r ∧ Ready path entries r.2 ∧ Answers q entries r.1 := by
    intro hmiss
    obtain ⟨hpolicy, hcached⟩ := cached_scanEntries q none h.cached fun e he => he
    exact ⟨_, lookUp_of_miss hfile hhosts h hmiss, h.of_samePolicy hpolicy hcached,
      answers_scanEntries⟩
  cases e with
  | none =>
    obtain ⟨rfl, -⟩ := hfinds
    exact hread fun _ => hget
  | some e =>
    cases huse : s.useCache with
    | false => exact hread fun htrue => absurd (huse.symm.trans htrue) Bool.false_ne_true
    | true =>
      obtain ⟨hmoved, hq, slot, hslot, he⟩ := hfinds
      exact ⟨_, lookUp_of_hit h huse hget, h.of_samePolicy hmoved.samePolicy
        (h.cached.rearranged hmoved), h.cached.mem slot e he, hq⟩

theorem call_ready (hfile : fopen path = some hosts) (hhosts : hostEntries hosts = some entries)
    (s : HostCache) (c : HostCall) (h : Ready path entries s) :
    ∃ s', s.call fopen c = some s' ∧ Ready path entries s' := by
  cases c with
  | findName vname =>
    obtain ⟨r, hr, hready, -⟩ := lookUp_answers hfile hhosts h (getNameHash_finds h.cached vname)
    exact ⟨r.2, by simp [call, findName, hr], hready⟩
  | findIp ip =>
    obtain ⟨r, hr, hready, -⟩ := lookUp_answers hfile hhosts h (getIpHash_finds h.cached ip)
    exact ⟨r.2, by simp [call, findIp, hr], hready⟩

/-- **Every history of calls.** -/
theorem run_ready (hfile : fopen path = some hosts) (hhosts : hostEntries hosts = some entries)
    (cachePolicy : Option String) (calls : List HostCall) :
    ∃ s, PartialRun.run (call fopen) (initHostnameCache (some path) cachePolicy) calls = some s ∧
      Ready path entries s :=
  PartialRun.run_isSome (call_ready hfile hhosts) calls (ready_init path cachePolicy entries)

end HostCache

open HostCache

variable {entries : List HostEntry} {fopen : String → Option (List (BitVec 8))} {path : String}
  {hosts : List (BitVec 8)}

/-- **The cache is transparent for names.** After any look-ups and under every policy, `find_name`
returns what the line of the name says, and fails if there is no such line. The lists of the table
hold lines of the file, each in the slot of its name, and a search only rearranges them. -/
theorem findName_transparent (hfile : fopen path = some hosts)
    (hhosts : hostEntries hosts = some entries) (hnames : (entries.map HostEntry.vname).Nodup)
    (cachePolicy : Option String) (calls : List HostCall) :
    ∃ s, PartialRun.run (call fopen) (initHostnameCache (some path) cachePolicy) calls = some s ∧
      (∀ vname, ∃ r, s.findName fopen vname = some r ∧ ∀ ip mname,
        r.1 = some (ip, mname) ↔ ⟨vname, ip, mname⟩ ∈ entries) ∧
      (∀ slot, ∃ l, s.Chain slot l ∧ l.Nodup ∧ ∀ a ∈ l, ∃ x, s.cells[a]? = some x ∧
        slotOf x.vname = slot ∧ x.toHostEntry ∈ entries) ∧
      (∀ vname, ∃ r, s.getNameHash vname = some r ∧ Rearranged s r.2) ∧
      ∀ ip, ∃ r, s.getIpHash ip = some r ∧ Rearranged s r.2 := by
  obtain ⟨s, hrun, hready⟩ := run_ready hfile hhosts cachePolicy calls
  refine ⟨s, hrun, ?_, ?_, ?_, ?_⟩
  · intro vname
    obtain ⟨r, hr, -, hanswers⟩ :=
      lookUp_answers hfile hhosts hready (getNameHash_finds hready.cached vname)
    exact ⟨_, by rw [findName, hr]; rfl, hanswers.name_iff hnames⟩
  · intro slot
    obtain ⟨l, hl⟩ := hready.cached.chain slot
    refine ⟨l, hl, Linked.nodup hl, ?_⟩
    intro a ha
    obtain ⟨x, hx, hholds⟩ := hl.holds ha
    exact ⟨x, hx, hready.cached.slot slot _ hholds, hready.cached.mem slot _ hholds⟩
  · intro vname
    obtain ⟨r, hr, hfinds⟩ := getNameHash_finds hready.cached vname
    exact ⟨r, hr, hfinds.rearranged⟩
  · intro ip
    obtain ⟨r, hr, hfinds⟩ := getIpHash_finds hready.cached ip
    exact ⟨r, hr, hfinds.rearranged⟩

/-- The lines `a 10.0.0.1 # on h` and `b 10.0.0.2 # on g`. -/
def twoNames : List (BitVec 8) :=
  ['a', ' ', '1', '0', '.', '0', '.', '0', '.', '1', ' ', '#', ' ', 'o', 'n', ' ', 'h', '\n',
    'b', ' ', '1', '0', '.', '0', '.', '0', '.', '2', ' ', '#', ' ', 'o', 'n', ' ', 'g', '\n'].map byte

/-- A file system with one file, under every name. -/
def oneFile (hosts : List (BitVec 8)) (_ : String) : Option (List (BitVec 8)) := some hosts

theorem findName_transparent_twoNames :
    ∃ s, PartialRun.run (call (oneFile twoNames))
        (initHostnameCache (some "hosts") (some "nopreload"))
        [.findIp 0x0200000a, .findName [byte 'a'], .findName [byte 'c']] = some s ∧
      ∃ r, s.findName (oneFile twoNames) [byte 'b'] = some r ∧
        r.1 = some (0x0200000a, [byte 'g']) := by
  have hhosts : hostEntries twoNames = some
      [⟨[byte 'a'], 0x0100000a, [byte 'h']⟩, ⟨[byte 'b'], 0x0200000a, [byte 'g']⟩] := by
    decide +kernel
  have hfile : oneFile twoNames "hosts" = some twoNames := rfl
  obtain ⟨s, hrun, hname, -⟩ := findName_transparent hfile hhosts (by decide) (some "nopreload")
    [.findIp 0x0200000a, .findName [byte 'a'], .findName [byte 'c']]
  obtain ⟨r, hr, hlines⟩ := hname [byte 'b']
  exact ⟨s, hrun, r, hr, (hlines _ _).mpr (by simp)⟩

end Modelnet.Client
