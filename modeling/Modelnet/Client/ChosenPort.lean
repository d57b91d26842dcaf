import Modelnet.Client.SocketBits

/-!
# The port bit

The third bit of a socket says that the application has chosen its port; `rebind_to` asks for any
port only when it is not set. But `bind_to` sets the bit from the port that it binds, and
`rebind_to` binds the port that the kernel has assigned. Beside the process runs an observer that
keeps what the application has asked for; this file shows in which runs the bit agrees with it.
-/

namespace Modelnet.Client

/-- A process, and the sockets that the application has bound to a port of its choice. -/
structure Observed where
  process : Process
  chosen : ℕ → Bool

namespace Observed

def init (mnLocalip : BitVec 32) (mnKeepDstip : Bool) : Observed where
  process := Process.init mnLocalip mnKeepDstip
  chosen := fun _ => false

/-- A `bind` of the application that succeeds chooses a port or none; a new socket has none. -/
def chosenAfter (g : Observed) : LibCall → ℕ → Bool
  | .socket _ s => if s < 0 then g.chosen else Function.update g.chosen s.toNat false
  | .bind s myAddr o =>
    match myAddr.sa with
    | some sa =>
      if o.bindOk ∧ (g.process.kernel s).isSome then
        Function.update g.chosen s (decide (sa.port ≠ 0))
      else g.chosen
    | none => g.chosen
  | .connect _ _ _ => g.chosen
  | .sendto _ _ _ => g.chosen
  | .sendmsg _ _ _ => g.chosen

def step (g : Observed) (call : LibCall) : Option Observed :=
  (g.process.step call).map fun c => ⟨c, g.chosenAfter call⟩

/-- For every open socket, the bit says whether the application has chosen the port, and a
`rebind_to` that does not get the old port is saved by another port if and only if it has not. -/
def PortKnown (g : Observed) : Prop :=
  ∀ s, (g.process.kernel s).isSome →
    g.process.hasport s = g.chosen s ∧
      ∀ o addr, g.process.Replaced o s → o.bindOk = false →
        ((g.process.rebindTo o s addr).2 = 0 ↔ g.chosen s = false ∧ o.bindAnyOk = true)

/-! ## The bit -/

/-- The bit of every open socket is right. -/
def Agrees (g : Observed) : Prop :=
  ∀ s, (g.process.kernel s).isSome → g.process.hasport s = g.chosen s

/-- What `rebind_to` does without the old port depends on the bit. -/
theorem rebindTo_portTaken {c : Process} {o : Outcomes} {s : ℕ} (h : c.Replaced o s)
    (htaken : o.bindOk = false) (addr : BitVec 32) :
    (c.rebindTo o s addr).2 = 0 ↔ c.hasport s = false ∧ o.bindAnyOk = true := by
  rw [Process.rebindTo_of_replaced h, htaken, if_neg Bool.false_ne_true]
  split_ifs with hany
  · exact iff_of_true rfl hany
  · exact iff_of_false (show ¬ (-1 : ℤ) = 0 by decide) hany

theorem portKnown_iff {g : Observed} : g.PortKnown ↔ g.Agrees := by
  refine ⟨fun h s hopen => (h s hopen).1, fun h s hopen => ⟨h s hopen, fun o addr hr htaken => ?_⟩⟩
  rw [rebindTo_portTaken hr htaken, h s hopen]

/-- The bits of a process agree with what the application has chosen, and a socket that is not
bound has no port. -/
structure Inv (g : Observed) : Prop where
  agrees : g.Agrees
  noPort : ∀ s, g.process.unbound s = true → g.process.hasport s = false

/-- The bits after a call: if they are right then so is the rest of the invariant, and they are right
if and only if `G` holds. -/
structure RightIff (g : Observed) (G : Prop) : Prop where
  inv : g.Agrees → g.Inv
  iff : g.Agrees ↔ G

theorem Inv.rightIff {g : Observed} {G : Prop} (h : g.Inv) (hG : G) : g.RightIff G :=
  ⟨fun _ => h, iff_of_true h.agrees hG⟩

theorem inv_init (mnLocalip : BitVec 32) (mnKeepDstip : Bool) :
    (init mnLocalip mnKeepDstip).Inv where
  agrees := fun _ hopen => absurd hopen (by simp [init, Process.init])
  noPort := fun _ _ => rfl

/-! ## Binding -/

section

variable {c c' : Process} {chosen : ℕ → Bool} {o : Outcomes} {s t : ℕ} {addr : BitVec 32}

theorem Inv.closes (h : Inv ⟨c, chosen⟩) (hclosed : c.Closes c') : Inv ⟨c', chosen⟩ where
  agrees := by
    intro t hopen
    dsimp only at hopen ⊢
    rw [hclosed.hasport]
    rcases hclosed.kernel t with hsame | hnone
    · exact h.agrees t (hsame ▸ hopen)
    · rw [hnone] at hopen
      exact absurd hopen (by decide)
  noPort := by
    intro t hunbound
    dsimp only at hunbound ⊢
    rw [hclosed.hasport]
    exact h.noPort t (hclosed.unbound ▸ hunbound)

/-- A new socket behind an open descriptor has the bits of the old one. -/
theorem Inv.replace (h : Inv ⟨c, chosen⟩) (hopen : (c.kernel s).isSome) (sNew : ℕ) :
    Inv ⟨c.replace s sNew, chosen⟩ where
  agrees := by
    intro t ht
    refine h.agrees t ?_
    by_cases hts : t = s
    · rw [hts]
      exact hopen
    by_cases hnew : t = sNew
    · rw [hnew] at ht
      exact absurd ht (by simp [Process.replace, Process.kernel_setKernel])
    · dsimp only [Process.replace] at ht
      rwa [Process.kernel_setKernel_of_ne _ _ hnew, Process.kernel_setKernel_of_ne _ _ hts,
        Process.kernel_setKernel_of_ne _ _ hnew] at ht
  noPort := h.noPort

/-- A `bind` of the application that the library takes over. -/
theorem Inv.bound_chosen (h : Inv ⟨c, chosen⟩) (s : ℕ) (addr : BitVec 32) (port : ℕ) :
    Inv ⟨c.bound s addr port, Function.update chosen s (decide (port ≠ 0))⟩ where
  agrees := by
    intro t hopen
    by_cases ht : t = s
    · rw [ht]
      exact (Function.update_self s _ c.hasport).trans (Function.update_self s _ chosen).symm
    · refine (Function.update_of_ne ht _ _).trans
        ((h.agrees t ?_).trans (Function.update_of_ne ht _ _).symm)
      rwa [← Process.kernel_setKernel_of_ne c (some ⟨some addr⟩) ht]
  noPort := by
    intro t hunbound
    by_cases ht : t = s
    · subst ht
      exact absurd ((Function.update_self _ _ c.unbound).symm.trans hunbound) (by decide)
    · exact (Function.update_of_ne ht _ _).trans
        (h.noPort t ((Function.update_of_ne ht _ _).symm.trans hunbound))

theorem Inv.bound (h : Inv ⟨c, chosen⟩) (addr : BitVec 32) {port : ℕ}
    (hport : chosen s = decide (port ≠ 0)) : Inv ⟨c.bound s addr port, chosen⟩ := by
  have hbound := h.bound_chosen s addr port
  rwa [← hport, Function.update_eq_self] at hbound

/-- The bit of a socket that has been bound says whether its port is zero. -/
theorem chosen_of_bound {port : ℕ} (h : Agrees ⟨c.bound s addr port, chosen⟩) :
    chosen s = decide (port ≠ 0) :=
  (h s (by simp [Process.bound, Process.kernel_setKernel])).symm.trans
    (Function.update_self _ _ c.hasport)

/-- **Implicit binds** of sockets that are not bound ask for no port. -/
theorem Inv.bindTo_any (h : Inv ⟨c, chosen⟩) (hunbound : c.unbound s = true) (ok : Bool)
    (addr : BitVec 32) : Inv ⟨(c.bindTo ok s addr 0).1, chosen⟩ := by
  rw [Process.bindTo_eq]
  split_ifs with hok
  · exact h.bound addr ((h.agrees s hok.2).symm.trans (h.noPort s hunbound))
  · exact h

/-! ## Binding again -/

/-- The port that a socket gets back is one that the application has chosen, or none at all. -/
def PortKept (chosen : ℕ → Bool) (o : Outcomes) (s : ℕ) : Prop :=
  o.bindOk = true → chosen s = decide (o.oldPort ≠ 0)

/-- **Rebinding** leaves the bits right exactly when a new socket on the old port is one whose port
the application has chosen. -/
theorem Inv.rebindTo (h : Inv ⟨c, chosen⟩) (o : Outcomes) (s : ℕ) (addr : BitVec 32) :
    RightIff ⟨(c.rebindTo o s addr).1, chosen⟩ (c.Replaced o s → PortKept chosen o s) := by
  by_cases hreplaced : c.Replaced o s
  swap
  · exact (h.closes (Process.rebindTo_of_not_replaced hreplaced addr).2).rightIff
      fun hyes => absurd hyes hreplaced
  have hreplace := h.replace hreplaced.1.2 o.newSocket.toNat
  rw [Process.rebindTo_of_replaced hreplaced]
  split_ifs with hok hany
  · refine ⟨fun hagrees => hreplace.bound addr (chosen_of_bound hagrees),
      fun hagrees _ _ => chosen_of_bound hagrees, fun hkept => ?_⟩
    exact (hreplace.bound addr (hkept hreplaced hok)).agrees
  · refine (Inv.bound hreplace addr ?_).rightIff fun _ hyes => absurd hyes hok
    exact (h.agrees s hreplaced.1.2).symm.trans hany.1
  · exact hreplace.rightIff fun _ hyes => absurd hyes hok

end

/-! ## The `bind` of the application -/

section

variable {c : Process} {o : Outcomes} {s : ℕ} {a : SockArg} {sa : SockaddrIn}

theorem bind_null (h : a.sa = none) : c.bind o s a = c := by
  have hinet : a.inet = none := by simp [SockArg.inet, h]
  simp [Process.bind, hinet, h]

theorem inet_cases (h : a.sa = some sa) : a.inet = some sa ∨ a.inet = none := by
  simp only [SockArg.inet, h, Option.filter_some]
  split_ifs <;> simp

theorem bind_passed (h : a.sa = some sa) (hpassed : a.inet = none ∨ c.mnLocalip = 0) :
    c.bind o s a = (c.fBind o.bindOk s sa.addr).1 := by
  unfold Process.bind
  rcases inet_cases h with hinet | hinet
  · have hlocal : c.mnLocalip = 0 := by simpa [hinet] using hpassed
    simp [hinet, h, hlocal]
  · simp [hinet, h]

theorem bind_looked (h : a.sa = some sa) (hlooked : ¬ (a.inet = none ∨ c.mnLocalip = 0)) :
    c.bind o s a = (c.bindTo o.bindOk s c.mnLocalip sa.port).1 := by
  unfold Process.bind
  push Not at hlooked
  have hinet : a.inet = some sa := (inet_cases h).resolve_right hlooked.1
  simp only [hinet, if_pos hlooked.2]

end

/-! ## Calls -/

/-- An address that the library passes on without a look has a port when the bit says so. -/
def PassedOn (g : Observed) (o : Outcomes) (s : ℕ) (a : SockArg) : Prop :=
  ∀ sa, a.sa = some sa → a.inet = none ∨ g.process.mnLocalip = 0 → o.bindOk = true →
    (g.process.kernel s).isSome → g.process.hasport s = decide (sa.port ≠ 0)

/-- A socket that is replaced on the way to `a` gets no port back that the kernel has chosen. -/
def Rebounds (g : Observed) (o : Outcomes) (s : ℕ) (a : SockArg) : Prop :=
  ∀ sa, a.inet = some sa → g.process.Rebinds s sa.addr → g.process.Replaced o s →
    PortKept g.chosen o s

/-- The condition on a call. -/
def KeepsChoice (g : Observed) : LibCall → Prop
  | .socket _ _ => True
  | .bind s myAddr o => g.PassedOn o s myAddr
  | .connect s servAddr o => g.Rebounds o s servAddr
  | .sendto s toAddr o => g.Rebounds o s toAddr
  | .sendmsg s name o => g.Rebounds o s name

variable {g g' : Observed} {o : Outcomes} {s : ℕ} {a : SockArg}

theorem Inv.socket (h : g.Inv) (domain : ℕ) (r : ℤ) (hstep : g.step (.socket domain r) = some g') :
    g'.Inv := by
  obtain ⟨c', hc, rfl⟩ := Option.map_eq_some_iff.mp hstep
  dsimp only [Process.step] at hc
  unfold Process.socket at hc
  dsimp only [chosenAfter]
  split_ifs at hc ⊢ with hr hdomain hsize
  · cases hc
    exact h
  · cases hc
    refine ⟨fun t hopen => ?_, fun t hunbound => ?_⟩
    · by_cases ht : t = r.toNat
      · subst ht
        simp
      · refine (Function.update_of_ne ht _ _).trans
          ((h.agrees t ?_).trans (Function.update_of_ne ht _ _).symm)
        rwa [← Process.kernel_setKernel_of_ne g.process (some ⟨none⟩) ht]
    · by_cases ht : t = r.toNat
      · subst ht
        simp
      · exact (Function.update_of_ne ht _ _).trans
          (h.noPort t ((Function.update_of_ne ht _ _).symm.trans hunbound))
  · cases hc
    refine ⟨fun t hopen => ?_, h.noPort⟩
    by_cases ht : t = r.toNat
    · subst ht
      exact absurd hopen (by simp [Process.kernel_setKernel])
    · refine (h.agrees t ?_).trans (Function.update_of_ne ht _ _).symm
      rwa [← Process.kernel_setKernel_of_ne g.process none ht]

theorem Inv.prepare (h : g.Inv) (o : Outcomes) (s : ℕ) (a : SockArg) :
    RightIff ⟨g.process.prepare o s a, g.chosen⟩ (g.Rebounds o s a) := by
  unfold Process.prepare Rebounds
  cases hinet : a.inet with
  | none => exact h.rightIff fun _ hno => nomatch hno
  | some sa =>
    simp only [Option.some.injEq, forall_eq']
    unfold Process.rebindIfNeeded Process.Rebinds Process.sockSys
    by_cases hmnet : IsMnetIp sa.addr <;> cases hunbound : g.process.unbound s
    · cases hmodelnet : g.process.modelnet s with
      | true => simpa [hmnet] using h.rightIff trivial
      | false => simpa [hmnet] using h.rebindTo o s g.process.mnLocalip
    · simpa [hmnet] using (h.bindTo_any hunbound o.bindOk g.process.mnLocalip).rightIff trivial
    · cases hmodelnet : g.process.modelnet s with
      | true => simpa [hmnet] using h.rebindTo o s inaddrAny
      | false => simpa [hmnet] using h.rightIff trivial
    · simpa [hmnet] using (h.bindTo_any hunbound o.bindOk inaddrAny).rightIff trivial

theorem Inv.passed (h : g.Inv) (addr : BitVec 32) (port : ℕ) (hopen : (g.process.kernel s).isSome) :
    RightIff ⟨g.process.setKernel s (some ⟨some addr⟩),
        Function.update g.chosen s (decide (port ≠ 0))⟩
      (g.process.hasport s = decide (port ≠ 0)) := by
  have hother : ∀ t, t ≠ s → ((g.process.setKernel s (some ⟨some addr⟩)).kernel t).isSome →
      g.process.hasport t = Function.update g.chosen s (decide (port ≠ 0)) t := by
    intro t ht hopen
    rw [Process.kernel_setKernel_of_ne _ _ ht] at hopen
    rw [Function.update_of_ne ht]
    exact h.agrees t hopen
  refine ⟨fun hagrees => ⟨hagrees, h.noPort⟩, fun hagrees => ?_, fun hport t hopen => ?_⟩
  · refine (hagrees s ?_).trans (Function.update_self _ _ _)
    simp [Process.kernel_setKernel]
  · by_cases ht : t = s
    · subst ht
      exact hport.trans (Function.update_self t _ g.chosen).symm
    · exact hother t ht hopen

theorem Inv.bind (h : g.Inv) (o : Outcomes) (s : ℕ) (a : SockArg) :
    RightIff ⟨g.process.bind o s a, g.chosenAfter (.bind s a o)⟩ (g.PassedOn o s a) := by
  unfold PassedOn
  dsimp only [chosenAfter]
  cases hsa : a.sa with
  | none =>
    rw [bind_null hsa]
    exact h.rightIff fun _ hno => nomatch hno
  | some sa =>
    simp only [Option.some.injEq, forall_eq']
    by_cases hpassed : a.inet = none ∨ g.process.mnLocalip = 0
    · rw [bind_passed hsa hpassed, Process.fBind]
      split_ifs with hok
      · have hright := h.passed sa.addr sa.port hok.2
        exact ⟨hright.inv, hright.iff.trans ⟨fun hport _ _ _ => hport,
          fun hport => hport hpassed hok.1 hok.2⟩⟩
      · exact h.rightIff fun _ hbind hopen => absurd ⟨hbind, hopen⟩ hok
    · rw [bind_looked hsa hpassed, Process.bindTo_eq]
      split_ifs with hok
      · exact (h.bound_chosen s _ sa.port).rightIff fun hyes => absurd hyes hpassed
      · exact h.rightIff fun hyes => absurd hyes hpassed

/-- **Step lemma.** A call leaves the bits right exactly when it meets the condition. -/
theorem Inv.step (h : g.Inv) (call : LibCall) (hstep : g.step call = some g') :
    g'.RightIff (g.KeepsChoice call) := by
  cases call with
  | socket domain r => exact (h.socket domain r hstep).rightIff trivial
  | bind s a o =>
    cases hstep
    exact h.bind o s a
  | connect s a o =>
    cases hstep
    exact h.prepare o s a
  | sendto s a o =>
    cases hstep
    exact h.prepare o s a
  | sendmsg s a o =>
    cases hstep
    exact h.prepare o s a

theorem keepsChoice_of_none {call : LibCall} (h : g.step call = none) : g.KeepsChoice call := by
  cases call with
  | socket domain r => trivial
  | bind s a o => cases h
  | connect s a o => cases h
  | sendto s a o => cases h
  | sendmsg s a o => cases h

/-- **Chosen ports.** In every sequence of calls, after each call the bit of every open socket says
whether the application has chosen its port, and `rebind_to` asks for any other port exactly when it
has not, if and only if no socket is rebound to a port that the kernel has chosen for it, and none
is bound behind the back of the library to a port that the bit does not know. -/
theorem guarded_portKnown_iff (mnLocalip : BitVec 32) (mnKeepDstip : Bool) (calls : List LibCall) :
    PartialRun.Guarded step (fun g call => ∀ g', g.step call = some g' → g'.PortKnown)
        (init mnLocalip mnKeepDstip) calls ↔
      PartialRun.Guarded step KeepsChoice (init mnLocalip mnKeepDstip) calls := by
  refine PartialRun.guarded_iff_of_invariant (I := Inv)
    (fun g call g' hI hafter hstep => (hI.step call hstep).inv (portKnown_iff.mp (hafter g' hstep)))
    (fun g call hI => ?_) (inv_init mnLocalip mnKeepDstip)
  cases hstep : g.step call with
  | none => exact iff_of_true (fun _ hno => nomatch hno) (keepsChoice_of_none hstep)
  | some g' =>
    rw [← (hI.step call hstep).iff]
    exact ⟨fun hafter => portKnown_iff.mp (hafter g' rfl),
      fun hagrees _ hg' => Option.some.inj hg' ▸ portKnown_iff.mpr hagrees⟩

/-- A client that binds to any port talks to a host outside the virtual network. -/
def clientConnects : List LibCall :=
  [.socket 2 3, .bind 3 ⟨some ⟨2, 0, 0⟩, 16⟩ ⟨true, true, 0, true, 4, true, true⟩,
    .connect 3 ⟨some ⟨2, 0xc0a80001, 25⟩, 16⟩ ⟨true, true, 40000, true, 4, true, true⟩]

/-- The kernel has assigned port 40000 and grants it to the new socket: from now on the library
takes it for the port that the application wants. -/
theorem not_guarded_portKnown :
    ¬ PartialRun.Guarded step (fun g call => ∀ g', g.step call = some g' → g'.PortKnown)
      (init 0x0a000001 false) clientConnects := by
  rintro ⟨-, h⟩
  obtain ⟨-, h⟩ := h _ rfl
  obtain ⟨h, -⟩ := h _ rfl
  have hport := (h _ rfl 3 (by decide)).1
  exact absurd hport (by decide)

end Observed

end Modelnet.Client
