import Modelnet.Client.SocketBits

/-!
# Rebinding once

`connect`, `sendto` and `sendmsg` call `rebind_if_needed` before every system call, so a socket that
fits its destination has to be left alone. Whether it is depends on the bits, and these come from
the address that was bound: `mn_localip`, which `init` takes from the environment as it is. This
file shows that a second call has nothing to do unless the destination is in the virtual network and
`mn_localip` is not.
-/

namespace Modelnet.Client

/-- System calls that all fail. -/
def Outcomes.refused : Outcomes := ⟨false, false, 0, false, -1, false, false⟩

/-- System calls that all succeed; `sNew` is the new descriptor. -/
def Outcomes.granted (sNew : ℕ) : Outcomes := ⟨true, true, 0, true, sNew, true, true⟩

namespace Process

variable {c c' : Process} {o : Outcomes} {s : ℕ} {addr dest : BitVec 32}

/-- `rebind_if_needed` makes no system call: it returns 0 and changes nothing, whatever the calls
would have returned. -/
def LeavesAlone (c : Process) (s : ℕ) (dest : BitVec 32) : Prop :=
  ∀ o, c.rebindIfNeeded o s dest = (c, 0)

/-- A socket is left alone exactly if its bits say that it is bound, to an address of the class of
the destination. -/
theorem leavesAlone_iff :
    c.LeavesAlone s dest ↔ c.unbound s = false ∧ (c.modelnet s = true ↔ IsMnetIp dest) := by
  constructor
  · intro h
    -- refused calls would show in the result
    have hrefused := congrArg Prod.snd (h Outcomes.refused)
    unfold rebindIfNeeded sockSys bindTo fBind rebindTo Outcomes.refused at hrefused
    by_cases hdest : IsMnetIp dest <;> cases hunbound : c.unbound s <;>
      cases hmodelnet : c.modelnet s <;> simp_all
  · rintro ⟨hunbound, hmodelnet⟩ o
    unfold rebindIfNeeded sockSys
    by_cases hdest : IsMnetIp dest
    · simp [hdest, hunbound, hmodelnet.mpr hdest]
    · have hsys : c.modelnet s = false := by simpa [hdest] using hmodelnet
      simp [hdest, hunbound, hsys]

/-! ## What a successful bind leaves -/

/-- The bits say that the socket is bound to `addr`. -/
def BitsFor (c : Process) (s : ℕ) (addr : BitVec 32) : Prop :=
  c.unbound s = false ∧ (c.modelnet s = true ↔ IsMnetIp addr)

theorem bitsFor_bound (c : Process) (s : ℕ) (addr : BitVec 32) (port : ℕ) :
    (c.bound s addr port).BitsFor s addr := by
  simp [BitsFor, bound]

theorem bitsFor_bindTo {ok : Bool} {port : ℕ} (h : c.bindTo ok s addr port = (c', 0)) :
    c'.BitsFor s addr := by
  rw [bindTo_eq] at h
  split_ifs at h
  · cases h
    exact bitsFor_bound c s addr port
  · cases h

theorem bitsFor_rebindTo (h : c.rebindTo o s addr = (c', 0)) : c'.BitsFor s addr := by
  have hreplaced : c.Replaced o s := replaced_of_rebindTo (congrArg Prod.snd h)
  rw [rebindTo_of_replaced hreplaced] at h
  split_ifs at h
  · cases h
    exact bitsFor_bound _ s addr _
  · cases h
    exact bitsFor_bound _ s addr _
  · cases h

theorem rebindTo_granted {sNew : ℕ} (hopen : (c.kernel s).isSome) (hne : s ≠ sNew)
    (addr : BitVec 32) :
    c.rebindTo (Outcomes.granted sNew) s addr = ((c.replace s sNew).bound s addr 0, 0) := by
  have hreplaced : c.Replaced (Outcomes.granted sNew) s :=
    ⟨⟨rfl, hopen⟩, rfl, Int.natCast_nonneg sNew, rfl, by simpa [Outcomes.granted] using hne⟩
  rw [rebindTo_of_replaced hreplaced]
  simp [Outcomes.granted]

/-! ## The second call -/

/-- After a `rebind_if_needed` that succeeds, another one on the socket with a destination of the
same class leaves it alone. -/
def RebindsOnce (c : Process) (s : ℕ) (dest : BitVec 32) : Prop :=
  ∀ o c', c.rebindIfNeeded o s dest = (c', 0) →
    ∀ dest', (IsMnetIp dest' ↔ IsMnetIp dest) → c'.LeavesAlone s dest'

/-- The socket has nothing to bind or is bound to an address of the class of the destination. -/
def FitsLocalip (c : Process) (s : ℕ) (dest : BitVec 32) : Prop :=
  c.kernel s = none ∨ IsMnetIp c.mnLocalip ∨ ¬ IsMnetIp dest ∨
    c.unbound s = false ∧ c.modelnet s = true

/-- The address that `rebind_if_needed` binds a socket to. -/
def localAddr (c : Process) (dest : BitVec 32) : BitVec 32 :=
  if IsMnetIp dest then c.mnLocalip else inaddrAny

theorem rebindIfNeeded_eq (c : Process) (o : Outcomes) (s : ℕ) (dest : BitVec 32) :
    c.rebindIfNeeded o s dest =
      if c.unbound s then c.bindTo o.bindOk s (c.localAddr dest) 0
      else if c.modelnet s = decide (IsMnetIp dest) then (c, 0)
      else c.rebindTo o s (c.localAddr dest) := by
  unfold rebindIfNeeded localAddr sockSys
  by_cases hdest : IsMnetIp dest <;> cases c.unbound s <;> cases c.modelnet s <;> simp [hdest]

/-- A call that succeeds leaves the socket alone or binds it. -/
theorem bits_of_rebindIfNeeded (h : c.rebindIfNeeded o s dest = (c', 0)) :
    c'.BitsFor s (c.localAddr dest) ∨
      c' = c ∧ c.unbound s = false ∧ (c.modelnet s = true ↔ IsMnetIp dest) := by
  rw [rebindIfNeeded_eq] at h
  split_ifs at h with hunbound hfits
  · exact Or.inl (bitsFor_bindTo h)
  · cases h
    exact Or.inr ⟨rfl, by simpa using hunbound, by simp [hfits]⟩
  · exact Or.inl (bitsFor_rebindTo h)

theorem isMnetIp_localAddr (h : IsMnetIp c.mnLocalip ∨ ¬ IsMnetIp dest) :
    IsMnetIp (c.localAddr dest) ↔ IsMnetIp dest := by
  unfold localAddr
  by_cases hdest : IsMnetIp dest
  · simpa [hdest] using h
  · rw [if_neg hdest]
    exact iff_of_false (by decide) hdest

theorem rebindIfNeeded_closed (hclosed : c.kernel s = none)
    (h : c.rebindIfNeeded o s dest = (c', 0)) :
    c' = c ∧ c.unbound s = false ∧ (c.modelnet s = true ↔ IsMnetIp dest) := by
  rw [rebindIfNeeded_eq] at h
  split_ifs at h with hunbound hfits
  · simp [bindTo_eq, hclosed] at h
  · cases h
    exact ⟨rfl, by simpa using hunbound, by simp [hfits]⟩
  · have hreplaced := replaced_of_rebindTo (congrArg Prod.snd h)
    exact absurd hreplaced.1.2 (by simp [hclosed])

theorem rebindsOnce_of_fitsLocalip (h : c.FitsLocalip s dest) : c.RebindsOnce s dest := by
  intro o c' hcall dest' hclass
  rw [leavesAlone_iff, hclass]
  by_cases hlocal : IsMnetIp c.mnLocalip ∨ ¬ IsMnetIp dest
  · -- whatever address has been bound, it is of the right class
    rcases bits_of_rebindIfNeeded hcall with ⟨hunbound, hmodelnet⟩ | ⟨rfl, hbits⟩
    · exact ⟨hunbound, hmodelnet.trans (isMnetIp_localAddr hlocal)⟩
    · exact hbits
  · have hdest : IsMnetIp dest := by
      by_contra hno
      exact hlocal (Or.inr hno)
    rcases h with hclosed | hmnet | hno | ⟨hunbound, hmodelnet⟩
    · obtain ⟨rfl, hbits⟩ := rebindIfNeeded_closed hclosed hcall
      exact hbits
    · exact absurd (Or.inl hmnet) hlocal
    · exact absurd hdest hno
    · have hquiet : c.LeavesAlone s dest :=
        leavesAlone_iff.mpr ⟨hunbound, iff_of_true hmodelnet hdest⟩
      cases (hquiet o).symm.trans hcall
      exact leavesAlone_iff.mp hquiet

/-- An open socket on its way into the virtual network gets the bits of `mn_localip`. -/
theorem exists_bitsFor_localip (hopen : (c.kernel s).isSome) (hdest : IsMnetIp dest)
    (hbits : ¬ (c.unbound s = false ∧ c.modelnet s = true)) :
    ∃ o c', c.rebindIfNeeded o s dest = (c', 0) ∧ c'.BitsFor s c.mnLocalip := by
  have haddr : c.localAddr dest = c.mnLocalip := if_pos hdest
  refine ⟨Outcomes.granted (s + 1), ?_⟩
  rw [rebindIfNeeded_eq, haddr]
  cases hunbound : c.unbound s with
  | true =>
    refine ⟨c.bound s c.mnLocalip 0, ?_, bitsFor_bound c s _ 0⟩
    rw [if_pos rfl, bindTo_eq]
    exact if_pos ⟨rfl, hopen⟩
  | false =>
    have hmodelnet : c.modelnet s = false := by simpa [hunbound] using hbits
    refine ⟨_, ?_, bitsFor_bound (c.replace s (s + 1)) s c.mnLocalip 0⟩
    rw [if_neg Bool.false_ne_true, hmodelnet, if_neg (by simp [hdest])]
    exact rebindTo_granted hopen (Nat.ne_of_lt (Nat.lt_succ_self s)) _

theorem fitsLocalip_of_rebindsOnce (h : c.RebindsOnce s dest) : c.FitsLocalip s dest := by
  by_contra hno
  unfold FitsLocalip at hno
  push Not at hno
  obtain ⟨hopen, hlocal, hdest, hbits⟩ := hno
  obtain ⟨o, c', hcall, -, hmodelnet⟩ := exists_bitsFor_localip
    (Option.isSome_iff_ne_none.mpr hopen) hdest fun hb => hbits hb.1 hb.2
  have hquiet := leavesAlone_iff.mp (h o c' hcall dest Iff.rfl)
  exact hlocal (hmodelnet.mp (hquiet.2.mpr hdest))

/-- **Rebinding is idempotent** exactly for the sockets that cannot be bound to an address outside
the virtual network on their way into it: the descriptor is closed, `mn_localip` or the socket is in
the virtual network, or the destination is not. -/
theorem rebindsOnce_iff : c.RebindsOnce s dest ↔ c.FitsLocalip s dest :=
  ⟨fitsLocalip_of_rebindsOnce, rebindsOnce_of_fitsLocalip⟩

/-- A process whose environment has no `SRCIP` opens a socket and sends to the virtual network:
every `sendto` binds again. -/
theorem not_rebindsOnce_noLocalip :
    ¬ ∀ c, (init 0 false).step (.socket 2 3) = some c → c.RebindsOnce 3 0x0a000002 := by
  intro h
  rcases fitsLocalip_of_rebindsOnce (h _ rfl) with hclosed | hlocal | hdest | ⟨hunbound, -⟩
  · exact absurd hclosed (by decide)
  · exact absurd hlocal (by decide)
  · exact hdest (by decide)
  · exact absurd hunbound (by decide)

end Process

end Modelnet.Client
