import Mathlib.Data.List.FinRange
import Modelnet.Client.HostCache

/-!
# What the host-name cache holds

The table always has a list for each slot, and in these lists only entries that belong there and
that come from a given collection (`HostCache.Cached`). Moving an entry to the front rearranges one
list (`HostCache.Rearranged`), and `put_name_hash` adds one entry. A search ends at an entry that is
looked for, or there is none (`HostCache.Finds`).
-/

namespace Modelnet.Client

namespace HostCache

variable {s s' : HostCache} {slot : Fin nameHashSlots} {l : List ℕ} {e : HostEntry}
  {entries : List HostEntry}

/-- The list of a slot. -/
def Chain (s : HostCache) (slot : Fin nameHashSlots) (l : List ℕ) : Prop :=
  Linked (fun a => s.cells[a]?) NameIp.next (s.nameHash slot) l

/-- The list of the slot has this entry. -/
def Holds (s : HostCache) (slot : Fin nameHashSlots) (e : HostEntry) : Prop :=
  ∃ l, s.Chain slot l ∧ ∃ a ∈ l, ∃ x, s.cells[a]? = some x ∧ x.toHostEntry = e

/-- Every slot has a list, whose entries belong there and are among `entries`. -/
structure Cached (entries : List HostEntry) (s : HostCache) : Prop where
  chain : ∀ slot, ∃ l, s.Chain slot l
  slot : ∀ slot e, s.Holds slot e → slotOf e.vname = slot
  mem : ∀ slot e, s.Holds slot e → e ∈ entries

/-- The variables other than the table are the same. -/
structure SamePolicy (s s' : HostCache) : Prop where
  hostsfile : s'.hostsfile = s.hostsfile
  useMdbHosts : s'.useMdbHosts = s.useMdbHosts
  useCache : s'.useCache = s.useCache
  cachePreload : s'.cachePreload = s.cachePreload

/-- The lists have the same cells in some order, and the cells the same entries. -/
structure Rearranged (s s' : HostCache) : Prop where
  samePolicy : SamePolicy s s'
  entry : ∀ a : ℕ, s'.cells[a]?.map NameIp.toHostEntry = s.cells[a]?.map NameIp.toHostEntry
  chain : ∀ slot l, s.Chain slot l → ∃ l', s'.Chain slot l' ∧ l'.Perm l

@[simp] theorem SamePolicy.refl (s : HostCache) : SamePolicy s s := ⟨rfl, rfl, rfl, rfl⟩

theorem SamePolicy.trans {s'' : HostCache} (h : SamePolicy s s') (h' : SamePolicy s' s'') :
    SamePolicy s s'' where
  hostsfile := h'.hostsfile.trans h.hostsfile
  useMdbHosts := h'.useMdbHosts.trans h.useMdbHosts
  useCache := h'.useCache.trans h.useCache
  cachePreload := h'.cachePreload.trans h.cachePreload

@[simp] theorem Rearranged.refl (s : HostCache) : Rearranged s s where
  samePolicy := SamePolicy.refl s
  entry := fun _ => rfl
  chain := fun _ l hl => ⟨l, hl, List.Perm.refl l⟩

theorem Chain.holds (h : s.Chain slot l) {a : ℕ} (ha : a ∈ l) :
    ∃ x, s.cells[a]? = some x ∧ s.Holds slot x.toHostEntry := by
  obtain ⟨x, hx⟩ := Linked.exists_cell h a ha
  exact ⟨x, hx, l, h, a, ha, x, hx, rfl⟩

theorem Chain.length_le (h : s.Chain slot l) : l.length ≤ s.cells.length := by
  have hcells := Linked.length_le h (List.range s.cells.length) fun a x hx =>
    List.mem_range.mpr (List.getElem?_eq_some_iff.mp hx).1
  rwa [List.length_range] at hcells

theorem Cached.slot_eq (h : Cached entries s) {i j : Fin nameHashSlots} {l' : List ℕ} {a : ℕ}
    (hi : s.Chain i l) (hj : s.Chain j l') (hl : a ∈ l) (hl' : a ∈ l') : i = j := by
  obtain ⟨x, hx, hxi⟩ := hi.holds hl
  obtain ⟨y, hy, hyj⟩ := hj.holds hl'
  cases hx.symm.trans hy
  exact (h.slot i _ hxi).symm.trans (h.slot j _ hyj)

theorem Rearranged.holds (h : Rearranged s s') (hlist : ∃ l, s.Chain slot l)
    (he : s'.Holds slot e) : s.Holds slot e := by
  obtain ⟨l, hl⟩ := hlist
  obtain ⟨l', hl', a, ha, y, hy, rfl⟩ := he
  obtain ⟨l'', hl'', hperm⟩ := h.chain slot l hl
  rw [Linked.unique hl' hl''] at ha
  obtain ⟨x, hx, hholds⟩ := hl.holds (hperm.mem_iff.mp ha)
  have hentry := h.entry a
  rw [hx, hy] at hentry
  rw [Option.some.inj hentry]
  exact hholds

theorem cached_empty (h : ∀ slot, s.nameHash slot = none) : Cached entries s := by
  have hempty : ∀ slot e, ¬ s.Holds slot e := by
    rintro slot e ⟨l, hl, a, ha, -⟩
    rw [Linked.unique hl (show s.Chain slot [] from h slot)] at ha
    exact List.not_mem_nil ha
  exact ⟨fun slot => ⟨[], h slot⟩, fun slot e he => absurd he (hempty slot e),
    fun slot e he => absurd he (hempty slot e)⟩

theorem Cached.rearranged (h : Cached entries s) (hs : Rearranged s s') : Cached entries s' where
  chain := by
    intro slot
    obtain ⟨l, hl⟩ := h.chain slot
    obtain ⟨l', hl', -⟩ := hs.chain slot l hl
    exact ⟨l', hl'⟩
  slot := fun slot e he => h.slot slot e (hs.holds (h.chain slot) he)
  mem := fun slot e he => h.mem slot e (hs.holds (h.chain slot) he)

/-! ## New entries -/

@[simp] theorem samePolicy_putNameHash (vname : CString) (ip : ℕ) (mname : CString) :
    SamePolicy s (s.putNameHash vname ip mname) := ⟨rfl, rfl, rfl, rfl⟩

theorem Chain.getElem?_putNameHash (h : s.Chain slot l) (e : HostEntry) {a : ℕ} (ha : a ∈ l) :
    (s.putNameHash e.vname e.ip e.mname).cells[a]? = s.cells[a]? := by
  obtain ⟨x, hx⟩ := Linked.exists_cell h a ha
  exact List.getElem?_append_left (List.getElem?_eq_some_iff.mp hx).1

/-- The lists after a new entry: it stands in front of the list of its slot. -/
theorem chain_putNameHash (h : ∃ l, s.Chain slot l) (e : HostEntry) :
    ∃ l, s.Chain slot l ∧ (s.putNameHash e.vname e.ip e.mname).Chain slot
      (if slotOf e.vname = slot then s.cells.length :: l else l) := by
  obtain ⟨l, hl⟩ := h
  refine ⟨l, hl, ?_⟩
  have hcells : ∀ a ∈ l, (s.putNameHash e.vname e.ip e.mname).cells[a]? = s.cells[a]? :=
    fun _ ha => hl.getElem?_putNameHash e ha
  unfold Chain
  by_cases heq : slotOf e.vname = slot
  · subst heq
    have hhead : (s.putNameHash e.vname e.ip e.mname).nameHash (slotOf e.vname) =
        some s.cells.length := by simp [putNameHash]
    rw [if_pos rfl, hhead]
    exact Linked.push hl (y := ⟨e, s.nameHash (slotOf e.vname)⟩) (by simp [putNameHash]) rfl hcells
  · have hhead : (s.putNameHash e.vname e.ip e.mname).nameHash slot = s.nameHash slot := by
      simp [putNameHash, Function.update_of_ne (Ne.symm heq)]
    rw [if_neg heq, hhead]
    exact Linked.congr hl hcells

theorem holds_putNameHash (h : ∃ l, s.Chain slot l) {d e : HostEntry} :
    (s.putNameHash e.vname e.ip e.mname).Holds slot d ↔
      s.Holds slot d ∨ slotOf e.vname = slot ∧ d = e := by
  obtain ⟨l, hl, hput⟩ := chain_putNameHash h e
  have hnew : (s.putNameHash e.vname e.ip e.mname).cells[s.cells.length]? =
      some ⟨e, s.nameHash (slotOf e.vname)⟩ := by simp [putNameHash]
  constructor
  · rintro ⟨l', hl', a, ha, x, hx, rfl⟩
    rw [Linked.unique hl' hput] at ha
    by_cases hal : a ∈ l
    · left
      rw [hl.getElem?_putNameHash e hal] at hx
      exact ⟨l, hl, a, hal, x, hx, rfl⟩
    · right
      split at ha
      · next heq =>
        obtain rfl := (List.mem_cons.mp ha).resolve_right hal
        rw [hnew] at hx
        cases hx
        exact ⟨heq, rfl⟩
      · exact absurd ha hal
  · rintro (⟨l', hl', a, ha, x, hx, rfl⟩ | ⟨heq, rfl⟩)
    · rw [Linked.unique hl' hl] at ha
      refine ⟨_, hput, a, ?_, x, (hl.getElem?_putNameHash _ ha).trans hx, rfl⟩
      split
      · exact List.mem_cons_of_mem _ ha
      · exact ha
    · rw [if_pos heq] at hput
      exact ⟨_, hput, _, List.mem_cons_self, _, hnew, rfl⟩

theorem Cached.putNameHash (h : Cached entries s) (he : e ∈ entries) :
    Cached entries (s.putNameHash e.vname e.ip e.mname) where
  chain := by
    intro slot
    obtain ⟨l, -, hl⟩ := chain_putNameHash (h.chain slot) e
    exact ⟨_, hl⟩
  slot := by
    intro slot d hd
    obtain hd | ⟨heq, rfl⟩ := (holds_putNameHash (h.chain slot)).mp hd
    · exact h.slot slot d hd
    · exact heq
  mem := by
    intro slot d hd
    obtain hd | ⟨-, rfl⟩ := (holds_putNameHash (h.chain slot)).mp hd
    · exact h.mem slot d hd
    · exact he

/-! ## Entries that move -/

theorem setNext_eq {a : ℕ} {x : NameIp} (hx : s.cells[a]? = some x) (p : Option ℕ) :
    s.setNext a p = some { s with cells := s.cells.set a { x with next := p } } := by
  simp [setNext, hx]

theorem entry_set {cells : List NameIp} {a : ℕ} {x : NameIp} (hx : cells[a]? = some x)
    (p : Option ℕ) (c : ℕ) : (cells.set a { x with next := p })[c]?.map NameIp.toHostEntry =
      cells[c]?.map NameIp.toHostEntry := by
  by_cases hc : a = c
  · subst hc
    rw [List.getElem?_set_self (List.getElem?_eq_some_iff.mp hx).1, hx]
    rfl
  · rw [List.getElem?_set_ne hc]

/-- The two writes of a move to the front, on the list that the entry is in. -/
theorem linked_moved {p : Option ℕ} {l₁ l₂ : List ℕ} {a b : ℕ} {x y : NameIp} {cells : List NameIp}
    (hl : Linked (fun c => cells[c]?) NameIp.next p (l₁ ++ a :: b :: l₂)) (hx : cells[a]? = some x)
    (hy : cells[b]? = some y) :
    Linked (fun c => ((cells.set a { x with next := y.next }).set b { y with next := p })[c]?)
      NameIp.next (some b) (b :: (l₁ ++ a :: l₂)) := by
  have ha : a ∉ l₁ ++ b :: l₂ := Linked.notMem hl
  have hb : b ∉ l₁ ++ a :: l₂ := by
    have hl' : Linked (fun c => cells[c]?) NameIp.next p ((l₁ ++ [a]) ++ b :: l₂) := by simpa using hl
    simpa using Linked.notMem hl'
  have hout : Linked (fun c => (cells.set a { x with next := y.next })[c]?) NameIp.next p
      (l₁ ++ a :: l₂) := by
    refine Linked.unlink hl hy (List.getElem?_set_self (List.getElem?_eq_some_iff.mp hx).1) rfl ?_
    intro c hc
    refine List.getElem?_set_ne ?_
    rintro rfl
    obtain hc | hc := List.mem_append.mp hc
    · exact ha (List.mem_append_left _ hc)
    · exact ha (List.mem_append_right _ (List.mem_cons_of_mem b hc))
  refine Linked.push hout (List.getElem?_set_self ?_) rfl ?_
  · rw [List.length_set]
    exact (List.getElem?_eq_some_iff.mp hy).1
  · intro c hc
    refine List.getElem?_set_ne ?_
    rintro rfl
    exact hb hc

/-- **Moving to the front** neither loses nor duplicates an entry. -/
theorem rearranged_moveToFront (h : Cached entries s) {l₁ l₂ : List ℕ} {b : ℕ}
    (hl : s.Chain slot (l₁ ++ b :: l₂)) :
    ∃ s', s.moveToFront slot l₁.getLast? b = some s' ∧ Rearranged s s' := by
  unfold moveToFront
  by_cases hfront : s.nameHash slot = some b
  · rw [if_pos hfront]
    exact ⟨s, rfl, Rearranged.refl s⟩
  · -- the entry is not the first, so the search has come from an entry `a`
    obtain rfl | ⟨l₁, a, rfl⟩ := List.eq_nil_or_concat l₁
    · exact absurd hl.1 hfront
    rw [List.concat_eq_append, List.append_assoc, List.singleton_append] at hl
    obtain ⟨x, hx⟩ := Linked.exists_cell hl a (by simp)
    obtain ⟨y, hy⟩ := Linked.exists_cell hl b (by simp)
    have hab : a ≠ b := by
      rintro rfl
      exact Linked.notMem hl (by simp)
    have hy' : (s.cells.set a { x with next := y.next })[b]? = some y := by
      rw [List.getElem?_set_ne hab, hy]
    rw [if_neg hfront]
    simp only [List.concat_eq_append, List.getLast?_append, List.getLast?_singleton, Option.some_or,
      Option.bind_eq_bind, Option.bind_some, hy, setNext_eq hx,
      setNext_eq (s := { s with cells := _ }) hy']
    refine ⟨_, rfl, ⟨rfl, rfl, rfl, rfl⟩, ?_, ?_⟩
    · intro c
      exact (entry_set hy' _ c).trans (entry_set hx _ c)
    · intro j l' hl'
      by_cases hj : j = slot
      · subst hj
        have hmiddle : (l₁ ++ [a] ++ b :: l₂).Perm (b :: (l₁ ++ [a] ++ l₂)) := List.perm_middle
        refine ⟨b :: (l₁ ++ a :: l₂), ?_, ?_⟩
        · simp only [Chain, Function.update_self]
          exact linked_moved hl hx hy
        · rw [Linked.unique hl' hl]
          simpa using hmiddle.symm
      · -- the cells that change are in no other list
        refine ⟨l', ?_, List.Perm.refl l'⟩
        simp only [Chain, Function.update_of_ne hj]
        refine Linked.congr hl' fun c hc => ?_
        have hac : a ≠ c := by
          rintro rfl
          exact hj (h.slot_eq hl' hl hc (by simp))
        have hbc : b ≠ c := by
          rintro rfl
          exact hj (h.slot_eq hl' hl hc (by simp))
        rw [List.getElem?_set_ne hbc, List.getElem?_set_ne hac]

/-! ## Searches -/

/-- What a search in one list, or in several, finds: an entry of them that is looked for, or that
there is none; then the table is as it was. -/
def Finds (s : HostCache) (slots : Set (Fin nameHashSlots)) (q : HostEntry → Bool) :
    Option HostEntry × HostCache → Prop
  | (some e, s') => Rearranged s s' ∧ q e = true ∧ ∃ slot ∈ slots, s.Holds slot e
  | (none, s') => s' = s ∧ ∀ slot ∈ slots, ∀ e, s.Holds slot e → q e = false

theorem Finds.rearranged {slots : Set (Fin nameHashSlots)} {q : HostEntry → Bool}
    {r : Option HostEntry × HostCache} (h : s.Finds slots q r) : Rearranged s r.2 := by
  obtain ⟨_ | e, s'⟩ := r
  · obtain ⟨rfl, -⟩ := h
    exact Rearranged.refl _
  · exact h.1

/-- **A search in a list** ends at an entry that is looked for, or there is none in the list. -/
theorem getInSlot_finds (h : Cached entries s) (q : HostEntry → Bool)
    (slot : Fin nameHashSlots) : ∃ r, s.getInSlot q slot = some r ∧ s.Finds {slot} q r := by
  obtain ⟨l, hl⟩ := h.chain slot
  obtain ⟨hnone, hall⟩ | ⟨l₁, b, l₂, x, rfl, hx, hq, hfound⟩ :=
    Linked.search hl (fun x => q x.toHostEntry) hl.length_le none
  · refine ⟨(none, s), ?_, rfl, ?_⟩
    · simp [getInSlot, hnone]
    · rintro _ rfl e ⟨l', hl', a, ha, x, hx, rfl⟩
      rw [Linked.unique hl' hl] at ha
      exact hall a ha x hx
  · obtain ⟨s', hs', hmoved⟩ := rearranged_moveToFront h hl
    refine ⟨(some x.toHostEntry, s'), ?_, hmoved, hq, slot, rfl, ?_⟩
    · simp [getInSlot, hfound, hx, hs']
    · exact ⟨_, hl, b, by simp, x, hx, rfl⟩

theorem getNameHash_finds (h : Cached entries s) (vname : CString) :
    ∃ r, s.getNameHash vname = some r ∧
      s.Finds {slotOf vname} (fun e => e.vname = vname) r :=
  getInSlot_finds h _ _

theorem getIpHashLoop_finds (h : Cached entries s) (ip : ℕ) (slots : List (Fin nameHashSlots)) :
    ∃ r, getIpHashLoop ip slots s = some r ∧
      s.Finds {slot | slot ∈ slots} (fun e => e.ip = ip) r := by
  induction slots with
  | nil => exact ⟨(none, s), rfl, rfl, by simp⟩
  | cons slot slots ih =>
    obtain ⟨⟨e, s'⟩, hr, hfinds⟩ := getInSlot_finds h (fun e => e.ip = ip) slot
    cases e with
    | some e =>
      obtain ⟨hmoved, hq, _, rfl, he⟩ := hfinds
      exact ⟨(some e, s'), by simp [getIpHashLoop, hr], hmoved, hq, _, by simp, he⟩
    | none =>
      obtain ⟨rfl, hnone⟩ := hfinds
      obtain ⟨⟨e, s''⟩, hr', hfinds⟩ := ih
      refine ⟨(e, s''), by simp [getIpHashLoop, hr, hr'], ?_⟩
      cases e with
      | some e =>
        obtain ⟨hmoved, hq, slot', hslot', he⟩ := hfinds
        exact ⟨hmoved, hq, slot', List.mem_cons_of_mem _ hslot', he⟩
      | none =>
        obtain ⟨rfl, hrest⟩ := hfinds
        refine ⟨rfl, ?_⟩
        intro slot' hslot' e he
        obtain rfl | hslot' := List.mem_cons.mp hslot'
        · exact hnone _ rfl e he
        · exact hrest slot' hslot' e he

theorem getIpHash_finds (h : Cached entries s) (ip : ℕ) :
    ∃ r, s.getIpHash ip = some r ∧ s.Finds Set.univ (fun e => e.ip = ip) r := by
  obtain ⟨r, hr, hfinds⟩ := getIpHashLoop_finds h ip (List.finRange nameHashSlots)
  refine ⟨r, hr, ?_⟩
  have hall : {slot | slot ∈ List.finRange nameHashSlots} = (Set.univ : Set (Fin nameHashSlots)) := by
    ext slot
    simp
  rwa [hall] at hfinds

end HostCache

end Modelnet.Client
