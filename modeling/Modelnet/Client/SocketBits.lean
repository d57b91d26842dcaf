import Modelnet.Client.Libipaddr
import Modelnet.Lib.Run

/-!
# The bits of a socket

The library keeps two bits for each socket: whether it has been bound, and whether to an address of
the virtual network. `rebind_to` replaces the socket behind a descriptor before it binds the new
one, and leaves the bits of the old one when that fails. This file shows that the bits are right as
long as this does not happen, and only so long.
-/

namespace Modelnet.Client

namespace Process

/-- The bits of the descriptor `s` say what the socket behind it is bound to. -/
def TracksAt (c : Process) (s : ℕ) : Prop :=
  ∀ k, c.kernel s = some k → (c.unbound s = true ↔ k.boundTo = none) ∧
    (c.modelnet s = true ↔ ∃ addr, k.boundTo = some addr ∧ IsMnetIp addr)

/-- The bits of every open socket are right. -/
def Tracks (c : Process) : Prop := ∀ s, c.TracksAt s

variable {c c' : Process} {o : Outcomes} {s t port : ℕ} {addr : BitVec 32}

theorem TracksAt.congr (h : c.TracksAt s) (hkernel : c'.kernel s = c.kernel s)
    (hunbound : c'.unbound s = c.unbound s) (hmodelnet : c'.modelnet s = c.modelnet s) :
    c'.TracksAt s := by
  intro k hk
  rw [hunbound, hmodelnet]
  exact h k (hkernel.symm.trans hk)

theorem tracksAt_of_closed (h : c.kernel s = none) : c.TracksAt s := by
  intro k hk
  rw [h] at hk
  cases hk

theorem kernel_setKernel (c : Process) (s : ℕ) (k : Option KernelSocket) :
    (c.setKernel s k).kernel s = k := Function.update_self _ _ _

theorem kernel_setKernel_of_ne (c : Process) (k : Option KernelSocket) (h : t ≠ s) :
    (c.setKernel s k).kernel t = c.kernel t := Function.update_of_ne h _ _

@[simp] theorem unbound_setKernel (c : Process) (s : ℕ) (k : Option KernelSocket) :
    (c.setKernel s k).unbound = c.unbound := rfl

@[simp] theorem modelnet_setKernel (c : Process) (s : ℕ) (k : Option KernelSocket) :
    (c.setKernel s k).modelnet = c.modelnet := rfl

@[simp] theorem mnLocalip_setKernel (c : Process) (s : ℕ) (k : Option KernelSocket) :
    (c.setKernel s k).mnLocalip = c.mnLocalip := rfl

/-! ## Binding -/

/-- The bits and the socket after `bind_to` has bound it. -/
def bound (c : Process) (s : ℕ) (addr : BitVec 32) (port : ℕ) : Process :=
  { c.setKernel s (some ⟨some addr⟩) with
    unbound := Function.update c.unbound s false
    modelnet := Function.update c.modelnet s (decide (IsMnetIp addr))
    hasport := Function.update c.hasport s (decide (port ≠ 0)) }

theorem bindTo_eq (c : Process) (ok : Bool) (s : ℕ) (addr : BitVec 32) (port : ℕ) :
    c.bindTo ok s addr port =
      if ok ∧ (c.kernel s).isSome then (c.bound s addr port, 0) else (c, -1) := by
  unfold bindTo fBind
  dsimp only
  split_ifs with hok h₁ h₂
  · rfl
  · exact absurd rfl h₁
  · exact absurd h₂ (show ¬ (-1 : ℤ) = 0 by decide)
  · rfl

theorem tracksAt_bound (c : Process) (s : ℕ) (addr : BitVec 32) (port : ℕ) :
    (c.bound s addr port).TracksAt s := by
  intro k hk
  cases (kernel_setKernel c s _).symm.trans hk
  simp [bound]

theorem TracksAt.bound_of_ne (h : c.TracksAt t) (ht : t ≠ s) (addr : BitVec 32) (port : ℕ) :
    (c.bound s addr port).TracksAt t :=
  h.congr (Function.update_of_ne ht _ _) (Function.update_of_ne ht _ _)
    (Function.update_of_ne ht _ _)

theorem Tracks.bindTo (h : c.Tracks) (ok : Bool) (s : ℕ) (addr : BitVec 32) (port : ℕ) :
    (c.bindTo ok s addr port).1.Tracks := by
  rw [bindTo_eq]
  split_ifs
  · intro t
    by_cases ht : t = s
    · rw [ht]
      exact tracksAt_bound c s addr port
    · exact (h t).bound_of_ne ht addr port
  · exact h

/-! ## Binding again -/

/-- `dup2` puts a new socket behind the descriptor. -/
def Replaced (c : Process) (o : Outcomes) (s : ℕ) : Prop :=
  (o.getsocknameOk = true ∧ (c.kernel s).isSome) ∧ o.getsockoptOk = true ∧ 0 ≤ o.newSocket ∧
    o.dup2Ok = true ∧ s ≠ o.newSocket.toNat

/-- The new socket is bound, to the port of the old one or to any. -/
def Rebound (c : Process) (o : Outcomes) (s : ℕ) : Prop :=
  o.bindOk = true ∨ c.hasport s = false ∧ o.bindAnyOk = true

/-- A new socket behind the descriptor. -/
def replace (c : Process) (s sNew : ℕ) : Process :=
  ((c.setKernel sNew (some ⟨none⟩)).setKernel s (some ⟨none⟩)).setKernel sNew none

theorem TracksAt.replace_of_ne (h : c.TracksAt t) (ht : t ≠ s) (sNew : ℕ) :
    (c.replace s sNew).TracksAt t := by
  by_cases hnew : t = sNew
  · rw [hnew]
    exact tracksAt_of_closed (kernel_setKernel _ _ _)
  · refine h.congr ?_ rfl rfl
    unfold replace
    rw [kernel_setKernel_of_ne _ _ hnew, kernel_setKernel_of_ne _ _ ht,
      kernel_setKernel_of_ne _ _ hnew]

theorem kernel_replace (c : Process) {sNew : ℕ} (hne : s ≠ sNew) :
    (c.replace s sNew).kernel s = some ⟨none⟩ := by
  unfold replace
  rw [kernel_setKernel_of_ne _ _ hne, kernel_setKernel]

/-- Descriptors have been closed, and nothing else. -/
structure Closes (c c' : Process) : Prop where
  kernel : ∀ t, c'.kernel t = c.kernel t ∨ c'.kernel t = none
  unbound : c'.unbound = c.unbound
  modelnet : c'.modelnet = c.modelnet
  hasport : c'.hasport = c.hasport

theorem closes_refl (c : Process) : c.Closes c := ⟨fun _ => Or.inl rfl, rfl, rfl, rfl⟩

theorem closes_reopened (c : Process) (sNew : ℕ) (k : Option KernelSocket) :
    c.Closes ((c.setKernel sNew k).setKernel sNew none) := by
  refine ⟨fun t => ?_, rfl, rfl, rfl⟩
  by_cases ht : t = sNew
  · rw [ht]
    exact Or.inr (kernel_setKernel _ _ _)
  · rw [kernel_setKernel_of_ne _ _ ht, kernel_setKernel_of_ne _ _ ht]
    exact Or.inl rfl

theorem Tracks.closes (h : c.Tracks) (hclosed : c.Closes c') : c'.Tracks := by
  intro t
  rcases hclosed.kernel t with hsame | hnone
  · exact (h t).congr hsame (congrFun hclosed.unbound t) (congrFun hclosed.modelnet t)
  · exact tracksAt_of_closed hnone

theorem bindTo_closed (h : c.kernel s = none) (ok : Bool) (addr : BitVec 32) (port : ℕ) :
    c.bindTo ok s addr port = (c, -1) := by
  rw [bindTo_eq, h]
  exact if_neg fun hok => absurd hok.2 (by decide)

/-- A `rebind_to` that does not replace the socket fails; it may have closed descriptors. -/
theorem rebindTo_of_not_replaced (hno : ¬ c.Replaced o s) (addr : BitVec 32) :
    (c.rebindTo o s addr).2 = -1 ∧ c.Closes (c.rebindTo o s addr).1 := by
  unfold rebindTo
  by_cases hname : o.getsocknameOk = true ∧ (c.kernel s).isSome
  swap
  · rw [if_pos hname]
    exact ⟨rfl, closes_refl c⟩
  by_cases htype : o.getsockoptOk = true
  swap
  · rw [if_neg (not_not.mpr hname), if_pos htype]
    exact ⟨rfl, closes_refl c⟩
  rw [if_neg (not_not.mpr hname), if_neg (not_not.mpr htype)]
  by_cases hnew : o.newSocket < 0
  · rw [if_pos hnew]
    exact ⟨rfl, closes_refl c⟩
  rw [if_neg hnew]
  dsimp only
  by_cases hdup : o.dup2Ok = true
  swap
  · rw [if_pos hdup]
    exact ⟨rfl, closes_reopened c _ _⟩
  rw [if_neg (not_not.mpr hdup)]
  -- a descriptor that is its own replacement is closed with it
  have hsame : s = o.newSocket.toNat := by
    by_contra hne
    exact hno ⟨hname, htype, Int.not_lt.mp hnew, hdup, hne⟩
  rw [← hsame]
  have hclosed : ∀ (c : Process) (ok : Bool) (port : ℕ),
      (c.setKernel s none).bindTo ok s addr port = (c.setKernel s none, -1) :=
    fun c ok port => bindTo_closed (kernel_setKernel c s none) ok addr port
  rw [hclosed]
  dsimp only
  rw [hclosed, ite_self]
  refine ⟨rfl, fun t => ?_, rfl, rfl, rfl⟩
  by_cases ht : t = s
  · rw [ht]
    exact Or.inr (kernel_setKernel _ _ _)
  · rw [kernel_setKernel_of_ne _ _ ht, kernel_setKernel_of_ne _ _ ht, kernel_setKernel_of_ne _ _ ht]
    exact Or.inl rfl

theorem replaced_of_rebindTo (h : (c.rebindTo o s addr).2 = 0) : c.Replaced o s := by
  by_contra hno
  rw [(rebindTo_of_not_replaced hno addr).1] at h
  exact absurd h (by decide)

theorem rebindTo_of_replaced (h : c.Replaced o s) (addr : BitVec 32) :
    c.rebindTo o s addr =
      if o.bindOk then ((c.replace s o.newSocket.toNat).bound s addr o.oldPort, 0)
      else if c.hasport s = false ∧ o.bindAnyOk then
        ((c.replace s o.newSocket.toNat).bound s addr 0, 0)
      else (c.replace s o.newSocket.toNat, -1) := by
  obtain ⟨hname, htype, hnew, hdup, hne⟩ := h
  have hkernel := kernel_replace c hne
  have hnewKernel : (c.setKernel o.newSocket.toNat (some ⟨none⟩)).kernel o.newSocket.toNat =
      some ⟨none⟩ := kernel_setKernel _ _ _
  unfold rebindTo
  rw [if_neg (not_not.mpr hname), if_neg (not_not.mpr htype), if_neg (Int.not_lt.mpr hnew)]
  dsimp only
  rw [if_neg (not_not.mpr hdup), hnewKernel]
  have hbind : ∀ (ok : Bool) (port : ℕ), (c.replace s o.newSocket.toNat).bindTo ok s addr port =
      if ok then ((c.replace s o.newSocket.toNat).bound s addr port, 0)
      else (c.replace s o.newSocket.toNat, -1) := by
    intro ok port
    rw [bindTo_eq, hkernel]
    cases ok <;> rfl
  show (if ((c.replace s o.newSocket.toNat).bindTo o.bindOk s addr o.oldPort).2 ≠ 0 ∧
      ¬ ((c.replace s o.newSocket.toNat).bindTo o.bindOk s addr o.oldPort).1.hasport s = true then
    ((c.replace s o.newSocket.toNat).bindTo o.bindOk s addr o.oldPort).1.bindTo o.bindAnyOk s addr 0
    else (c.replace s o.newSocket.toNat).bindTo o.bindOk s addr o.oldPort) = _
  rw [hbind]
  cases hok : o.bindOk with
  | true => rfl
  | false =>
    have hport : (c.replace s o.newSocket.toNat).hasport s = c.hasport s := rfl
    simp only [Bool.false_eq_true, if_false]
    rw [hbind, hport]
    cases c.hasport s <;> cases o.bindAnyOk <;> rfl

/-- **Rebinding** a socket that the bits say is bound keeps them right exactly when a socket that
replaces it is bound in its turn. -/
theorem Tracks.rebindTo_iff (h : c.Tracks) (hbound : c.unbound s = false) (o : Outcomes)
    (addr : BitVec 32) :
    (c.rebindTo o s addr).1.Tracks ↔ (c.Replaced o s → c.Rebound o s) := by
  by_cases hreplaced : c.Replaced o s
  swap
  · exact ⟨fun _ hyes => absurd hyes hreplaced,
      fun _ => h.closes (rebindTo_of_not_replaced hreplaced addr).2⟩
  have htracks : ∀ port, ((c.replace s o.newSocket.toNat).bound s addr port).Tracks := by
    intro port t
    by_cases ht : t = s
    · rw [ht]
      exact tracksAt_bound _ _ _ _
    · exact ((h t).replace_of_ne ht _).bound_of_ne ht addr port
  rw [rebindTo_of_replaced hreplaced]
  split_ifs with hok hany
  · exact ⟨fun _ _ => Or.inl hok, fun _ => htracks _⟩
  · exact ⟨fun _ _ => Or.inr hany, fun _ => htracks _⟩
  · constructor
    · intro hafter
      have hunbound : (c.replace s o.newSocket.toNat).unbound s = true :=
        (hafter s _ (kernel_replace c hreplaced.2.2.2.2)).1.mpr rfl
      exact absurd (hbound.symm.trans hunbound) (by decide)
    · intro hyes
      exact absurd (hyes hreplaced) fun hr => hr.elim hok hany

/-- `rebind_if_needed` is about to call `rebind_to`. -/
def Rebinds (c : Process) (s : ℕ) (dest : BitVec 32) : Prop :=
  c.unbound s = false ∧ (if IsMnetIp dest then c.modelnet s = false else c.modelnet s = true)

theorem Tracks.rebindIfNeeded_iff (h : c.Tracks) (o : Outcomes) (s : ℕ) (dest : BitVec 32) :
    (c.rebindIfNeeded o s dest).1.Tracks ↔
      (c.Rebinds s dest → c.Replaced o s → c.Rebound o s) := by
  unfold rebindIfNeeded Rebinds sockSys
  by_cases hmnet : IsMnetIp dest
  · rw [if_pos hmnet, if_pos hmnet]
    cases hunbound : c.unbound s with
    | true => simpa using h.bindTo _ _ _ _
    | false =>
      cases hmodelnet : c.modelnet s with
      | true => simpa using h
      | false => simpa using h.rebindTo_iff hunbound o c.mnLocalip
  · rw [if_neg hmnet, if_neg hmnet]
    cases hunbound : c.unbound s with
    | true => simpa using h.bindTo _ _ _ _
    | false =>
      cases hmodelnet : c.modelnet s with
      | true => simpa using h.rebindTo_iff hunbound o inaddrAny
      | false => simpa using h

end Process

/-! ## Runs -/

/-- A call of the library, with what the system calls behind it return. -/
inductive LibCall where
  | socket (domain : ℕ) (s : ℤ)
  | bind (s : ℕ) (myAddr : SockArg) (o : Outcomes)
  | connect (s : ℕ) (servAddr : SockArg) (o : Outcomes)
  | sendto (s : ℕ) (toAddr : SockArg) (o : Outcomes)
  | sendmsg (s : ℕ) (name : SockArg) (o : Outcomes)

namespace Process

/-- One call; `none` is the failed assertion of `socket`. -/
def step (c : Process) : LibCall → Option Process
  | .socket domain s => c.socket domain s
  | .bind s myAddr o => some (c.bind o s myAddr)
  | .connect s servAddr o => some (c.connect o s servAddr).1
  | .sendto s toAddr o => some (c.sendto o s toAddr).1
  | .sendmsg s name o => some (c.sendmsg o s name).1

/-- A `bind` that passes an address on which the library does not look at is no surprise. -/
def PassedOn (c : Process) (o : Outcomes) (s : ℕ) (a : SockArg) : Prop :=
  ∀ sa, a.inet = none → a.sa = some sa → o.bindOk = true → (c.kernel s).isSome →
    c.unbound s = false ∧ (c.modelnet s = true ↔ IsMnetIp sa.addr)

/-- A socket that replaces another one on the way to `a` is bound. -/
def Rebounds (c : Process) (o : Outcomes) (s : ℕ) (a : SockArg) : Prop :=
  ∀ sa, a.inet = some sa → c.Rebinds s sa.addr → c.Replaced o s → c.Rebound o s

/-- The condition on a call. -/
def KeepsTrack (c : Process) : LibCall → Prop
  | .socket _ _ => True
  | .bind s myAddr o => c.PassedOn o s myAddr
  | .connect s servAddr o => c.Rebounds o s servAddr
  | .sendto s toAddr o => c.Rebounds o s toAddr
  | .sendmsg s name o => c.Rebounds o s name

variable {c c' : Process}

theorem Tracks.socket (h : c.Tracks) {domain : ℕ} {r : ℤ} (hstep : c.socket domain r = some c') :
    c'.Tracks := by
  unfold Process.socket at hstep
  split_ifs at hstep
  · cases hstep
    exact h
  · cases hstep
    intro t
    by_cases ht : t = r.toNat
    · intro k hk
      subst ht
      cases (Function.update_self _ _ c.kernel).symm.trans hk
      simp
    · exact (h t).congr (Function.update_of_ne ht _ _) (Function.update_of_ne ht _ _)
        (Function.update_of_ne ht _ _)
  · cases hstep
    intro t
    by_cases ht : t = r.toNat
    · rw [ht]
      exact tracksAt_of_closed (kernel_setKernel _ _ _)
    · exact (h t).congr (kernel_setKernel_of_ne _ _ ht) rfl rfl

theorem Tracks.bind_iff (h : c.Tracks) (hlocal : c.mnLocalip ≠ 0) (o : Outcomes) (s : ℕ)
    (a : SockArg) : (c.bind o s a).Tracks ↔ c.PassedOn o s a := by
  unfold Process.bind PassedOn
  cases hinet : a.inet with
  | some sa =>
    dsimp only
    rw [if_pos hlocal]
    exact ⟨fun _ _ hno => (nomatch hno), fun _ => h.bindTo _ _ _ _⟩
  | none =>
    cases hsa : a.sa with
    | none => exact ⟨fun _ _ _ hsome => (nomatch hsome), fun _ => h⟩
    | some sa =>
      dsimp only
      unfold fBind
      split_ifs with hok
      · constructor
        · intro htracks sa' _ hsa' _ _
          cases hsa'
          obtain ⟨hunbound, hmodelnet⟩ := htracks s _ (kernel_setKernel c s _)
          exact ⟨by simpa using hunbound, by simpa using hmodelnet⟩
        · intro hpassed t
          obtain ⟨hunbound, hmodelnet⟩ := hpassed sa rfl rfl hok.1 hok.2
          by_cases ht : t = s
          · intro k hk
            subst ht
            cases (kernel_setKernel c t _).symm.trans hk
            exact ⟨by simpa using hunbound, by simpa using hmodelnet⟩
          · exact (h t).congr (kernel_setKernel_of_ne _ _ ht) rfl rfl
      · exact ⟨fun _ sa' _ _ hbind hopen => absurd ⟨hbind, hopen⟩ hok, fun _ => h⟩

theorem Tracks.prepare_iff (h : c.Tracks) (o : Outcomes) (s : ℕ) (a : SockArg) :
    (c.prepare o s a).Tracks ↔ c.Rebounds o s a := by
  unfold prepare Rebounds
  cases hinet : a.inet with
  | none => exact ⟨fun _ _ hno => (nomatch hno), fun _ => h⟩
  | some sa =>
    dsimp only
    rw [h.rebindIfNeeded_iff]
    exact ⟨fun hr sa' hsa' => Option.some.inj hsa' ▸ hr, fun hr => hr sa rfl⟩

/-- **Step lemma.** A call leaves the bits right exactly when it meets the condition. -/
theorem Tracks.step_iff (h : c.Tracks) (hlocal : c.mnLocalip ≠ 0) (call : LibCall) :
    (∀ c', c.step call = some c' → c'.Tracks) ↔ c.KeepsTrack call := by
  cases call with
  | socket domain r => exact ⟨fun _ => trivial, fun _ _ hstep => h.socket hstep⟩
  | bind s a o =>
    refine Iff.trans ?_ (h.bind_iff hlocal o s a)
    exact ⟨fun hall => hall _ rfl, fun htracks _ hstep => Option.some.inj hstep ▸ htracks⟩
  | connect s a o =>
    refine Iff.trans ?_ (h.prepare_iff o s a)
    exact ⟨fun hall => hall _ rfl, fun htracks _ hstep => Option.some.inj hstep ▸ htracks⟩
  | sendto s a o =>
    refine Iff.trans ?_ (h.prepare_iff o s a)
    exact ⟨fun hall => hall _ rfl, fun htracks _ hstep => Option.some.inj hstep ▸ htracks⟩
  | sendmsg s a o =>
    refine Iff.trans ?_ (h.prepare_iff o s a)
    exact ⟨fun hall => hall _ rfl, fun htracks _ hstep => Option.some.inj hstep ▸ htracks⟩

@[simp] theorem mnLocalip_bindTo (c : Process) (ok : Bool) (s : ℕ) (addr : BitVec 32)
    (port : ℕ) : (c.bindTo ok s addr port).1.mnLocalip = c.mnLocalip := by
  rw [bindTo_eq]
  split_ifs <;> rfl

@[simp] theorem mnLocalip_rebindTo (c : Process) (o : Outcomes) (s : ℕ) (addr : BitVec 32) :
    (c.rebindTo o s addr).1.mnLocalip = c.mnLocalip := by
  unfold rebindTo
  dsimp only
  split_ifs <;> simp

@[simp] theorem mnLocalip_prepare (c : Process) (o : Outcomes) (s : ℕ) (a : SockArg) :
    (c.prepare o s a).mnLocalip = c.mnLocalip := by
  unfold prepare rebindIfNeeded
  cases a.inet with
  | none => rfl
  | some sa =>
    dsimp only
    split_ifs <;> simp

theorem mnLocalip_step {call : LibCall} (h : c.step call = some c') :
    c'.mnLocalip = c.mnLocalip := by
  cases call with
  | socket domain r =>
    unfold step Process.socket at h
    dsimp only at h
    split_ifs at h <;> cases h <;> rfl
  | bind s a o =>
    cases h
    unfold Process.bind
    cases a.inet <;> cases a.sa <;> simp [fBind] <;> split_ifs <;> simp
  | connect s a o =>
    cases h
    exact mnLocalip_prepare c o s a
  | sendto s a o =>
    cases h
    exact mnLocalip_prepare c o s a
  | sendmsg s a o =>
    cases h
    exact mnLocalip_prepare c o s a

/-- **State bits.** In every sequence of calls, the bits are right after each call if and only if no
call leaves a new socket behind a descriptor unbound, and none passes an address on with success
that does not fit the bits. -/
theorem guarded_tracks_iff {mnLocalip : BitVec 32} (hlocal : IsMnetIp mnLocalip)
    (mnKeepDstip : Bool) (calls : List LibCall) :
    PartialRun.Guarded step (fun c call => ∀ c', c.step call = some c' → c'.Tracks)
        (init mnLocalip mnKeepDstip) calls ↔
      PartialRun.Guarded step KeepsTrack (init mnLocalip mnKeepDstip) calls := by
  have hne : mnLocalip ≠ 0 := by
    rintro rfl
    exact absurd hlocal (by decide)
  refine PartialRun.guarded_iff_of_invariant (I := fun c => c.Tracks ∧ c.mnLocalip ≠ 0)
    (fun c call c' hI hafter hstep => ⟨hafter c' hstep, ?_⟩)
    (fun c call hI => hI.1.step_iff hI.2 call)
    ⟨fun s => tracksAt_of_closed rfl, hne⟩
  rw [mnLocalip_step hstep]
  exact hI.2

/-- A server socket on port 80 is connected to a host outside the virtual network. The port is
asked for again, and `portOk` says whether the kernel grants it. -/
def serverConnects (portOk : Bool) : List LibCall :=
  [.socket 2 3, .bind 3 ⟨some ⟨2, 0, 80⟩, 16⟩ ⟨true, true, 0, true, 4, true, true⟩,
    .connect 3 ⟨some ⟨2, 0xc0a80001, 25⟩, 16⟩ ⟨portOk, true, 80, true, 4, true, true⟩]

/-- The port is granted. -/
theorem guarded_tracks_portOk :
    PartialRun.Guarded step (fun c call => ∀ c', c.step call = some c' → c'.Tracks)
      (init 0x0a000001 false) (serverConnects true) := by
  refine (guarded_tracks_iff (by decide) false _).mpr
    ⟨trivial, fun c₁ h₁ => ⟨fun sa hinet => ?_, fun c₂ h₂ => ⟨?_, fun _ _ => trivial⟩⟩⟩
  · exact absurd hinet (by simp [SockArg.inet, sockaddrInSize, afInet])
  · exact fun _ _ _ _ => Or.inl rfl

/-- The port is taken: the socket behind descriptor 3 is new, and its bits are those of the old
one. -/
theorem not_guarded_tracks_portTaken :
    ¬ PartialRun.Guarded step (fun c call => ∀ c', c.step call = some c' → c'.Tracks)
      (init 0x0a000001 false) (serverConnects false) := by
  rintro ⟨-, h⟩
  obtain ⟨-, h⟩ := h _ rfl
  obtain ⟨h, -⟩ := h _ rfl
  have hunbound := (h _ rfl 3 ⟨none⟩ rfl).1.mpr rfl
  exact absurd hunbound (by decide)

end Process

end Modelnet.Client
