import Modelnet.FreeBSD.Xtq
import Modelnet.Lib.Run
import Mathlib.Data.Finset.Card

/-!
# Safety of the installation

Which calls of `xtq_install` and `xtq_uninstall` keep the disciplines of the hops in order: a hop
with a handler has a pipe of its own that is not released, a type that is not known and a failed
allocation leave a plain FIFO, and `xcp_pipe_count` counts the hops with XCP. The table is copied
into the hop before the pipe is allocated, and the fallback entry is `qsw[num_qsw_entries-1]`, that
of XCP; so an unknown type and a failed allocation leave the handlers of XCP without a pipe. The
invariant `Sound` is stated for the hops of a set, so that it can leave out the one at work.
-/

namespace Modelnet.FreeBSD

open Modelnet PartialRun

/-- No function of the discipline is set. -/
def ExtendedQ.IsPlain (q : ExtendedQ) : Prop :=
  q.alloc = none ∧ q.free = none ∧ q.enqueue = none ∧ q.dequeue = none

theorem ExtendedQ.isPlain_plain (t : ℤ) : (ExtendedQ.plain t).IsPlain := ⟨rfl, rfl, rfl, rfl⟩

inductive XtqCall where
  | install (h : HopPtr) (hop : Hop) (xtqType : ℤ) (env : XtqEnv)
  | uninstall (h : HopPtr) (hop : Hop) (xtqType : ℤ) (env : XtqEnv)

namespace XtqCall

def hop : XtqCall → HopPtr
  | install h _ _ _ => h
  | uninstall h _ _ _ => h

/-- The type that a call installs, with what the kernel answers. -/
def installs : XtqCall → Option (ℤ × XtqEnv)
  | install _ _ t env => some (t, env)
  | uninstall _ _ t env => if 0 ≤ t then some (t, env) else none

end XtqCall

namespace XtqState

def call (s : XtqState) : XtqCall → XtqState
  | .install h hop t env => s.xtqInstall h hop t env
  | .uninstall h hop t env => s.xtqUninstall h hop t env

/-- A call as a step; it always completes. -/
def callStep (s : XtqState) (c : XtqCall) : Option XtqState := some (s.call c)

def XcpInstalled (s : XtqState) (h : HopPtr) : Prop := (s.xtq h).type = xtqXcp

instance (s : XtqState) (h : HopPtr) : Decidable (s.XcpInstalled h) :=
  inferInstanceAs (Decidable (_ = _))

/-- The hop points to a pipe that was allocated for it and is not released. -/
def OwnsPipe (s : XtqState) (h : HopPtr) : Prop :=
  ∃ a b, (s.xtq h).xtHop = some a ∧ s.pipes a = some b ∧ b.owner = h ∧ b.released = false

/-- A state in order. -/
structure Safe (s : XtqState) : Prop where
  pipe : ∀ h, (s.xtq h).enqueue ≠ none ∨ (s.xtq h).dequeue ≠ none → s.OwnsPipe h
  count : ∃ hops : Finset HopPtr,
    (∀ h, h ∈ hops ↔ s.XcpInstalled h) ∧ s.xcpPipeCount = hops.card

/-- The type that the call installs is unknown, or its pipe is not allocated. -/
def Refused (s : XtqState) (t : ℤ) (env : XtqEnv) : Prop :=
  (t ≠ xtqNoxtq ∧ t ≠ xtqXcp) ∨ (t = xtqXcp ∧ s.mallocPipe env = none)

/-- The call leaves a state in order, and a plain FIFO where it was refused. -/
def CallSafe (s : XtqState) (c : XtqCall) : Prop :=
  (s.call c).Safe ∧
    ∀ t env, c.installs = some (t, env) → s.Refused t env → ((s.call c).xtq c.hop).IsPlain

/-- The type is an index of `qsw`, and the pipe of XCP can be allocated. -/
def Installable (s : XtqState) (t : ℤ) (env : XtqEnv) : Prop :=
  0 ≤ t ∧ t ≤ 2 ∧ (t = xtqXcp → (s.mallocPipe env).isSome)

/-- What a call has to meet: `xtq_install` finds a hop without XCP, `xtq_uninstall` without a
reinstallation as well, and what is installed is installable. -/
def CallFits (s : XtqState) : XtqCall → Prop
  | .install h _ t env => ¬ s.XcpInstalled h ∧ s.Installable t env
  | .uninstall h _ t env => if 0 ≤ t then s.Installable t env else ¬ s.XcpInstalled h

theorem callFits_uninstall {s : XtqState} {h : HopPtr} {hop : Hop} {t : ℤ} {env : XtqEnv} :
    s.CallFits (.uninstall h hop t env) ↔
      if 0 ≤ t then s.Installable t env else ¬ s.XcpInstalled h := Iff.rfl

/-- The state is in order as far as the hops of `P` are concerned, and the count is theirs. -/
structure Sound (s : XtqState) (P : HopPtr → Prop) : Prop where
  handlers : ∀ h, P h → ((s.xtq h).IsPlain ∧ ¬ s.XcpInstalled h) ∨
    ∃ a b, s.xtq h = .xcp (some a) ∧ s.pipes a = some b ∧ b.owner = h ∧ b.released = false
  count : ∃ hops : Finset HopPtr,
    (∀ h, h ∈ hops ↔ P h ∧ s.XcpInstalled h) ∧ s.xcpPipeCount = hops.card
  init : s.xcpInitialized = false → s.xcpPipeCount = 0

def Everywhere : HopPtr → Prop := fun _ => True

variable {s : XtqState} {h h' : HopPtr} {hop : Hop} {t : ℤ} {env : XtqEnv} {a : Addr}

theorem xcpInstalled_xcp {pipe : Option Addr} (hxtq : s.xtq h = .xcp pipe) : s.XcpInstalled h := by
  unfold XcpInstalled
  rw [hxtq]
  rfl

theorem xcpInstalled_setXtq_ne (hne : h' ≠ h) (q : ExtendedQ) :
    (s.setXtq h q).XcpInstalled h' ↔ s.XcpInstalled h' := by
  unfold XcpInstalled
  rw [setXtq_xtq_ne s hne]

theorem Sound.safe (hs : s.Sound Everywhere) : s.Safe := by
  constructor
  · intro h hhandler
    rcases hs.handlers h trivial with ⟨⟨-, -, henq, hdeq⟩, -⟩ | ⟨a, b, hxtq, hb⟩
    · exact absurd hhandler (by simp [henq, hdeq])
    · exact ⟨a, b, by rw [hxtq]; rfl, hb⟩
  · obtain ⟨hops, hmem, hcard⟩ := hs.count
    exact ⟨hops, fun h => by rw [hmem h, Everywhere, true_and], hcard⟩

theorem sound_boot (hz : ℕ) : (boot hz).Sound Everywhere where
  handlers := fun _ _ => .inl ⟨ExtendedQ.isPlain_plain _,
    by simp [XcpInstalled, boot, ExtendedQ.plain, xtqNoxtq, xtqXcp]⟩
  count := ⟨∅, fun h => by simp [XcpInstalled, boot, ExtendedQ.plain, xtqNoxtq, xtqXcp], rfl⟩
  init := fun _ => rfl

/-! ## What the calls do -/

@[simp] theorem scheduleHop_xtq (s : XtqState) (h : HopPtr) (f : Timeout) (d : ℕ) (ok : Bool) :
    (s.scheduleHop h f d ok).xtq = s.xtq := by
  unfold scheduleHop
  split_ifs <;> rfl

@[simp] theorem scheduleHop_pipes (s : XtqState) (h : HopPtr) (f : Timeout) (d : ℕ) (ok : Bool) :
    (s.scheduleHop h f d ok).pipes = s.pipes := by
  unfold scheduleHop
  split_ifs <;> rfl

@[simp] theorem scheduleHop_xcpPipeCount (s : XtqState) (h : HopPtr) (f : Timeout) (d : ℕ)
    (ok : Bool) : (s.scheduleHop h f d ok).xcpPipeCount = s.xcpPipeCount := by
  unfold scheduleHop
  split_ifs <;> rfl

@[simp] theorem scheduleHop_xcpInitialized (s : XtqState) (h : HopPtr) (f : Timeout) (d : ℕ)
    (ok : Bool) : (s.scheduleHop h f d ok).xcpInitialized = s.xcpInitialized := by
  unfold scheduleHop
  split_ifs <;> rfl

@[simp] theorem countPipe_xtq (s : XtqState) : s.countPipe.xtq = s.xtq := by
  unfold countPipe
  dsimp only
  split_ifs <;> rfl

@[simp] theorem countPipe_pipes (s : XtqState) : s.countPipe.pipes = s.pipes := by
  unfold countPipe
  dsimp only
  split_ifs <;> rfl

@[simp] theorem countPipe_xcpInitialized (s : XtqState) : s.countPipe.xcpInitialized = true := by
  unfold countPipe
  dsimp only
  split_ifs with hinit
  · exact hinit
  · rfl

theorem countPipe_xcpPipeCount (hinit : s.xcpInitialized = false → s.xcpPipeCount = 0) :
    s.countPipe.xcpPipeCount = s.xcpPipeCount + 1 := by
  unfold countPipe
  dsimp only
  split_ifs with h
  · rfl
  · rw [hinit (by simpa using h)]
    rfl

@[simp] theorem mallocPipe_countPipe (s : XtqState) (env : XtqEnv) :
    s.countPipe.mallocPipe env = s.mallocPipe env := by
  unfold mallocPipe
  rw [countPipe_pipes]

@[simp] theorem startPipe_xtq (s : XtqState) (h : HopPtr) (hop : Hop) (env : XtqEnv) (a : Addr) :
    (s.startPipe h hop env a).xtq = s.xtq := by
  simp [startPipe, setPipe]

@[simp] theorem startPipe_pipes (s : XtqState) (h : HopPtr) (hop : Hop) (env : XtqEnv) (a : Addr) :
    (s.startPipe h hop env a).pipes = Function.update s.pipes a
      (some ⟨h, false, XcpRouter.start s.hz hop s.nextRouter⟩) := by
  simp [startPipe, setPipe]

@[simp] theorem startPipe_xcpPipeCount (s : XtqState) (h : HopPtr) (hop : Hop) (env : XtqEnv)
    (a : Addr) : (s.startPipe h hop env a).xcpPipeCount = s.xcpPipeCount := by
  simp [startPipe, setPipe]

@[simp] theorem startPipe_xcpInitialized (s : XtqState) (h : HopPtr) (hop : Hop) (env : XtqEnv)
    (a : Addr) : (s.startPipe h hop env a).xcpInitialized = s.xcpInitialized := by
  simp [startPipe, setPipe]

theorem pipes_of_mallocPipe (h : s.mallocPipe env = some a) : s.pipes a = none := by
  obtain ⟨-, hfree⟩ := Option.filter_eq_some_iff.mp h
  have hnone : a ≠ 0 ∧ (s.pipes a).isNone := by simpa using hfree
  simpa using hnone.2

/-- A failed allocation leaves the functions of XCP without a pipe. -/
theorem xtqInstall_failed_xtq (hmalloc : s.mallocPipe env = none) :
    (s.xtqInstall h hop xtqXcp env).xtq h = .xcp none := by
  have hmalloc' : (s.setXtq h (.xcp none)).mallocPipe env = none := hmalloc
  rw [xtqInstall_xcp]
  unfold xcpAllocPipe
  simp only [mallocPipe_countPipe, hmalloc', setXtq_xtq_self, countPipe_xtq]
  rfl

/-- A successful installation of XCP: counted, pointed to the pipe, and started. -/
theorem xtqInstall_allocated (h : HopPtr) (hop : Hop) (hmalloc : s.mallocPipe env = some a) :
    s.xtqInstall h hop xtqXcp env =
      (((s.setXtq h (.xcp none)).countPipe).setXtq h (.xcp (some a))).startPipe h hop env a := by
  have hmalloc' : (s.setXtq h (.xcp none)).countPipe.mallocPipe env = some a := by
    rw [mallocPipe_countPipe]
    exact hmalloc
  rw [xtqInstall_xcp]
  unfold xcpAllocPipe
  simp only [hmalloc', countPipe_xtq, setXtq_xtq_self]
  rfl

/-- What it leaves: a fresh pipe, and a count that is one higher. -/
theorem xtqInstall_xcp_spec (h : HopPtr) (hop : Hop) (hmalloc : s.mallocPipe env = some a)
    (hinit : s.xcpInitialized = false → s.xcpPipeCount = 0) :
    (s.xtqInstall h hop xtqXcp env).xtq = Function.update s.xtq h (.xcp (some a)) ∧
    (∃ p, (s.xtqInstall h hop xtqXcp env).pipes =
      Function.update s.pipes a (some ⟨h, false, p⟩)) ∧
    (s.xtqInstall h hop xtqXcp env).xcpPipeCount = s.xcpPipeCount + 1 ∧
    (s.xtqInstall h hop xtqXcp env).xcpInitialized = true := by
  rw [xtqInstall_allocated h hop hmalloc, startPipe_xtq, startPipe_pipes, startPipe_xcpPipeCount,
    startPipe_xcpInitialized]
  refine ⟨?_, ⟨_, congrArg (fun m => Function.update m a _) (countPipe_pipes _)⟩,
    countPipe_xcpPipeCount hinit, countPipe_xcpInitialized _⟩
  simp [setXtq]

/-! ## The step lemmas -/

theorem Sound.leave (hs : s.Sound Everywhere) (hplain : ¬ s.XcpInstalled h) :
    s.Sound (· ≠ h) where
  handlers := fun h' _ => hs.handlers h' trivial
  count := by
    obtain ⟨hops, hmem, hcard⟩ := hs.count
    refine ⟨hops, fun h' => ?_, hcard⟩
    rw [hmem h', Everywhere, true_and]
    exact ⟨fun hx => ⟨fun he => hplain (he ▸ hx), hx⟩, And.right⟩
  init := hs.init

/-- `xcp_free_pipe` takes its hop out of the count. -/
theorem Sound.free (hs : s.Sound Everywhere) (hxcp : s.XcpInstalled h) :
    (s.xcpFreePipe h).Sound (· ≠ h) := by
  have hxtq : (s.xcpFreePipe h).xtq = s.xtq := by
    unfold xcpFreePipe
    dsimp only
    split_ifs <;> rfl
  have hpipes : (s.xcpFreePipe h).pipes = (s.releasePipe h).pipes := by
    unfold xcpFreePipe
    dsimp only
    split_ifs <;> rfl
  have hcount : (s.xcpFreePipe h).xcpPipeCount = s.xcpPipeCount - 1 := by
    unfold xcpFreePipe
    dsimp only
    split_ifs <;> rfl
  have hinstalled : ∀ h', (s.xcpFreePipe h).XcpInstalled h' ↔ s.XcpInstalled h' := by
    intro h'
    unfold XcpInstalled
    rw [hxtq]
  constructor
  · intro h' hne
    rcases hs.handlers h' trivial with ⟨hplain, hx⟩ | ⟨a, b, hx, hb, howner, hlive⟩
    · exact .inl ⟨by rw [hxtq]; exact hplain, by rw [hinstalled]; exact hx⟩
    · refine .inr ⟨a, b, by rw [hxtq]; exact hx, ?_, howner, hlive⟩
      -- the pipe belongs to `h'`, so it is not the one of `h`
      have hother : (s.xtq h).xtHop ≠ some a := by
        intro heq
        rcases hs.handlers h trivial with ⟨-, hnot⟩ | ⟨c, d, hx', hd, howner', -⟩
        · exact hnot hxcp
        · rw [hx'] at heq
          cases heq
          rw [hb] at hd
          cases hd
          exact hne (howner.symm.trans howner')
      rw [hpipes]
      show (if (s.xtq h).xtHop = some a then _ else s.pipes a) = some b
      rw [if_neg hother, hb]
  · obtain ⟨hops, hmem, hcard⟩ := hs.count
    have hin : h ∈ hops := (hmem h).mpr ⟨trivial, hxcp⟩
    refine ⟨hops.erase h, fun h' => ?_, ?_⟩
    · rw [Finset.mem_erase, hmem h', hinstalled, Everywhere, true_and]
    · rw [hcount, hcard, Finset.card_erase_of_mem hin, Nat.cast_sub (Finset.card_pos.mpr ⟨h, hin⟩)]
      rfl
  · unfold xcpFreePipe
    dsimp only
    split_ifs with hzero
    · exact fun _ => hzero
    · intro hinit
      exact absurd (hs.init hinit) (by
        obtain ⟨hops, hmem, hcard⟩ := hs.count
        have hpos := Finset.card_pos.mpr ⟨h, (hmem h).mpr ⟨trivial, hxcp⟩⟩
        omega)

/-- An installable type brings the hop back. -/
theorem Sound.install (hs : s.Sound (· ≠ h)) (hinst : s.Installable t env) :
    (s.xtqInstall h hop t env).Sound Everywhere := by
  obtain ⟨h0, h2, hmalloc⟩ := hinst
  rcases (by unfold xtqXcp; omega : t = xtqXcp ∨ t = 0 ∨ t = 2) with rfl | hplain
  · obtain ⟨a, ha⟩ := Option.isSome_iff_exists.mp (hmalloc rfl)
    obtain ⟨hxtq, ⟨p, hpipes⟩, hcount, hinit⟩ := xtqInstall_xcp_spec h hop ha hs.init
    have hfresh := pipes_of_mallocPipe ha
    have hself : (s.xtqInstall h hop xtqXcp env).xtq h = .xcp (some a) := by
      rw [hxtq, Function.update_self]
    have hother : ∀ h', h' ≠ h → (s.xtqInstall h hop xtqXcp env).xtq h' = s.xtq h' := by
      intro h' hne
      rw [hxtq, Function.update_of_ne hne]
    constructor
    · intro h' _
      by_cases hne : h' = h
      · subst hne
        exact .inr ⟨a, _, hself, by rw [hpipes, Function.update_self], rfl, rfl⟩
      · rcases hs.handlers h' hne with ⟨hplain, hx⟩ | ⟨c, b, hx, hb, hrest⟩
        · refine .inl ⟨by rw [hother h' hne]; exact hplain, ?_⟩
          unfold XcpInstalled
          rw [hother h' hne]
          exact hx
        · have hca : c ≠ a := by
            rintro rfl
            rw [hfresh] at hb
            cases hb
          exact .inr ⟨c, b, by rw [hother h' hne]; exact hx,
            by rw [hpipes, Function.update_of_ne hca]; exact hb, hrest⟩
    · obtain ⟨hops, hmem, hcard⟩ := hs.count
      have hnot : h ∉ hops := fun hin => ((hmem h).mp hin).1 rfl
      refine ⟨insert h hops, fun h' => ?_, ?_⟩
      · rw [Finset.mem_insert, hmem h', Everywhere, true_and]
        by_cases hne : h' = h
        · subst hne
          simp [xcpInstalled_xcp hself]
        · unfold XcpInstalled
          rw [hother h' hne]
          simp [hne]
      · rw [hcount, hcard, Finset.card_insert_of_notMem hnot]
        rfl
    · intro hfalse
      rw [hinit] at hfalse
      cases hfalse
  · obtain ⟨u, hu, heq⟩ := xtqInstall_plain s h hop env hplain
    rw [heq]
    constructor
    · intro h' _
      by_cases hne : h' = h
      · subst hne
        refine .inl ⟨?_, ?_⟩
        · rw [setXtq_xtq_self]
          exact ExtendedQ.isPlain_plain u
        · unfold XcpInstalled
          rw [setXtq_xtq_self]
          exact hu
      · rw [xcpInstalled_setXtq_ne hne, setXtq_xtq_ne s hne]
        exact hs.handlers h' hne
    · obtain ⟨hops, hmem, hcard⟩ := hs.count
      refine ⟨hops, fun h' => ?_, hcard⟩
      rw [hmem h', Everywhere, true_and]
      by_cases hne : h' = h
      · subst hne
        have hplain : ¬ (s.setXtq h' (.plain u)).XcpInstalled h' := by
          unfold XcpInstalled
          rw [setXtq_xtq_self]
          exact hu
        simp [hplain]
      · rw [xcpInstalled_setXtq_ne hne]
        simp [hne]
    · exact hs.init

/-- Under the invariant, a hop has something to free exactly when it has XCP. -/
theorem Sound.free_isSome_iff (hs : s.Sound Everywhere) (h : HopPtr) :
    (s.xtq h).free.isSome ↔ s.XcpInstalled h := by
  rcases hs.handlers h trivial with ⟨⟨-, hfree, -, -⟩, hnot⟩ | ⟨a, b, hxtq, -⟩
  · simp [hfree, hnot]
  · simp [xcpInstalled_xcp hxtq, hxtq, ExtendedQ.xcp]

theorem Sound.freed (hs : s.Sound Everywhere) (h : HopPtr) :
    (if (s.xtq h).free.isSome then s.xcpFreePipe h else s).Sound (· ≠ h) := by
  have hiff := hs.free_isSome_iff h
  split_ifs with hfree
  · exact hs.free (hiff.mp hfree)
  · exact hs.leave (mt hiff.mpr hfree)

theorem mallocPipe_xcpFreePipe (s : XtqState) (h : HopPtr) (env : XtqEnv) :
    (s.xcpFreePipe h).mallocPipe env = s.mallocPipe env := by
  have hpipes : ∀ a, ((s.xcpFreePipe h).pipes a).isNone = (s.pipes a).isNone := by
    intro a
    have hrelease : (s.xcpFreePipe h).pipes = (s.releasePipe h).pipes := by
      unfold xcpFreePipe
      dsimp only
      split_ifs <;> rfl
    rw [hrelease]
    show (if (s.xtq h).xtHop = some a then _ else s.pipes a : Option XcpBlock).isNone = _
    split_ifs
    · exact Option.isNone_map
    · rfl
  unfold mallocPipe
  simp only [hpipes]

theorem installable_freed_iff (s : XtqState) (h : HopPtr) (t : ℤ) (env : XtqEnv) :
    (if (s.xtq h).free.isSome then s.xcpFreePipe h else s).Installable t env ↔
      s.Installable t env := by
  split_ifs
  · unfold Installable
    rw [mallocPipe_xcpFreePipe]
  · exact Iff.rfl

/-! ## What goes wrong -/

theorem not_safe_of_xcp_none (hxtq : s.xtq h = .xcp none) : ¬ s.Safe := by
  intro hsafe
  obtain ⟨a, -, ha, -⟩ := hsafe.pipe h (.inl (by rw [hxtq]; simp [ExtendedQ.xcp]))
  rw [hxtq] at ha
  cases ha

theorem installable_of_safe (hsafe : (s.xtqInstall h hop t env).Safe) : s.Installable t env := by
  by_cases hunknown : t < 0 ∨ 2 < t
  · have hxtq : (s.xtqInstall h hop t env).xtq h = .xcp none := by
      rw [xtqInstall_unknown hunknown, setXtq_xtq_self]
    exact absurd hsafe (not_safe_of_xcp_none hxtq)
  · refine ⟨by omega, by omega, ?_⟩
    rintro rfl
    by_contra hnone
    exact not_safe_of_xcp_none (xtqInstall_failed_xtq (by simpa using hnone)) hsafe

theorem Safe.count_eq (hsafe : s.Safe) {hops : Finset HopPtr}
    (hmem : ∀ h, h ∈ hops ↔ s.XcpInstalled h) : s.xcpPipeCount = hops.card := by
  obtain ⟨hops', hmem', hcard⟩ := hsafe.count
  rw [hcard, show hops' = hops by ext h; rw [hmem', hmem]]

theorem Sound.not_installed (hs : s.Sound Everywhere) (hinst : s.Installable t env)
    (hsafe : (s.xtqInstall h hop t env).Safe) : ¬ s.XcpInstalled h := by
  intro hxcp
  obtain ⟨h0, h2, hmalloc⟩ := hinst
  obtain ⟨hops, hmem, hcard⟩ := hs.count
  have hin : h ∈ hops := (hmem h).mpr ⟨trivial, hxcp⟩
  rcases (by unfold xtqXcp; omega : t = xtqXcp ∨ t = 0 ∨ t = 2) with rfl | hplain
  · obtain ⟨a, ha⟩ := Option.isSome_iff_exists.mp (hmalloc rfl)
    obtain ⟨hxtq, -, hcount, -⟩ := xtqInstall_xcp_spec h hop ha hs.init
    have hsame : ∀ h', h' ∈ hops ↔ (s.xtqInstall h hop xtqXcp env).XcpInstalled h' := by
      intro h'
      rw [hmem h', Everywhere, true_and]
      unfold XcpInstalled
      rw [hxtq]
      by_cases hne : h' = h
      · subst hne
        rw [Function.update_self]
        exact ⟨fun _ => rfl, fun _ => hxcp⟩
      · rw [Function.update_of_ne hne]
    have := hsafe.count_eq hsame
    omega
  · obtain ⟨u, hu, heq⟩ := xtqInstall_plain s h hop env hplain
    have hsame : ∀ h', h' ∈ hops.erase h ↔ (s.xtqInstall h hop t env).XcpInstalled h' := by
      intro h'
      rw [heq, Finset.mem_erase, hmem h', Everywhere, true_and]
      by_cases hne : h' = h
      · subst hne
        unfold XcpInstalled
        rw [setXtq_xtq_self]
        simp [ExtendedQ.plain, hu]
      · rw [xcpInstalled_setXtq_ne hne]
        simp [hne]
    have hcount := hsafe.count_eq hsame
    rw [heq] at hcount
    have hsetcount : (s.setXtq h (.plain u)).xcpPipeCount = s.xcpPipeCount := rfl
    have hpos := Finset.card_pos.mpr ⟨h, hin⟩
    rw [Finset.card_erase_of_mem hin] at hcount
    omega

/-- Freeing a pipe and keeping the functions miscounts. -/
theorem Sound.not_safe_free (hs : s.Sound Everywhere) (hxcp : s.XcpInstalled h) :
    ¬ (s.xcpFreePipe h).Safe := by
  intro hsafe
  obtain ⟨hops, hmem, hcard⟩ := hs.count
  obtain ⟨hops', hmem', hcard'⟩ := (hs.free hxcp).count
  have hxtq : (s.xcpFreePipe h).xtq = s.xtq := by
    unfold xcpFreePipe
    dsimp only
    split_ifs <;> rfl
  have hsame : ∀ h', h' ∈ hops ↔ (s.xcpFreePipe h).XcpInstalled h' := by
    intro h'
    rw [hmem h', Everywhere, true_and]
    unfold XcpInstalled
    rw [hxtq]
  have herase : hops' = hops.erase h := by
    ext h'
    rw [hmem' h', Finset.mem_erase, hsame h']
  have hin : h ∈ hops := (hmem h).mpr ⟨trivial, hxcp⟩
  have hcount := hsafe.count_eq hsame
  have hpos := Finset.card_pos.mpr ⟨h, hin⟩
  rw [herase, Finset.card_erase_of_mem hin] at hcard'
  omega

/-! ## Runs -/

/-- A type that is refused and yet installable is the last one of the table, without functions. -/
theorem isPlain_of_refused (hinst : s.Installable t env) {s' : XtqState}
    (hmalloc : s'.mallocPipe env = s.mallocPipe env) (hrefused : s'.Refused t env) :
    ((s.xtqInstall h hop t env).xtq h).IsPlain := by
  obtain ⟨h0, h2, hxcp⟩ := hinst
  rcases hrefused with ⟨hne0, hne1⟩ | ⟨rfl, hnone⟩
  · have ht : t = 0 ∨ t = 2 := by
      unfold xtqNoxtq at hne0
      unfold xtqXcp at hne1
      omega
    obtain ⟨u, -, heq⟩ := xtqInstall_plain s h hop env ht
    rw [heq, setXtq_xtq_self]
    exact ExtendedQ.isPlain_plain u
  · have hsome := hxcp rfl
    rw [← hmalloc, hnone] at hsome
    cases hsome

/-- **Calls.** A call that fits keeps the invariant, and only such a call leaves a state in
order. -/
theorem Sound.call (hs : s.Sound Everywhere) {c : XtqCall} (hfits : s.CallFits c) :
    (s.call c).Sound Everywhere := by
  cases c with
  | install h hop t env => exact (hs.leave hfits.1).install hfits.2
  | uninstall h hop t env =>
    show (s.xtqUninstall h hop t env).Sound Everywhere
    by_cases h0 : 0 ≤ t
    · rw [callFits_uninstall, if_pos h0] at hfits
      rw [xtqUninstall_of_nonneg h0]
      exact (hs.freed h).install ((installable_freed_iff s h t env).mpr hfits)
    · rw [callFits_uninstall, if_neg h0] at hfits
      rw [xtqUninstall_of_neg h0, if_neg (mt (hs.free_isSome_iff h).mp hfits)]
      exact hs

theorem Sound.callSafe_iff (hs : s.Sound Everywhere) (c : XtqCall) :
    s.CallSafe c ↔ s.CallFits c := by
  constructor
  · rintro ⟨hsafe, -⟩
    cases c with
    | install h hop t env =>
      have hinst : s.Installable t env := installable_of_safe hsafe
      exact ⟨hs.not_installed hinst hsafe, hinst⟩
    | uninstall h hop t env =>
      have hun : (s.xtqUninstall h hop t env).Safe := hsafe
      rw [callFits_uninstall]
      by_cases h0 : 0 ≤ t
      · rw [xtqUninstall_of_nonneg h0] at hun
        rw [if_pos h0]
        exact (installable_freed_iff s h t env).mp (installable_of_safe hun)
      · rw [xtqUninstall_of_neg h0] at hun
        rw [if_neg h0]
        intro hxcp
        rw [if_pos ((hs.free_isSome_iff h).mpr hxcp)] at hun
        exact hs.not_safe_free hxcp hun
  · intro hfits
    refine ⟨(hs.call hfits).safe, fun t env hinstalls hrefused => ?_⟩
    cases c with
    | install h hop t' env' =>
      cases hinstalls
      exact isPlain_of_refused hfits.2 rfl hrefused
    | uninstall h hop t' env' =>
      have hsome : (if 0 ≤ t' then some (t', env') else none) = some (t, env) := hinstalls
      split_ifs at hsome with h0
      cases hsome
      rw [callFits_uninstall, if_pos h0] at hfits
      show ((s.xtqUninstall h hop t env).xtq h).IsPlain
      rw [xtqUninstall_of_nonneg h0]
      refine isPlain_of_refused ((installable_freed_iff s h t env).mpr hfits) ?_ hrefused
      split_ifs
      · exact (mallocPipe_xcpFreePipe s h env).symm
      · rfl

/-- **Safety of the installation.** The calls of a run all leave a state in order, with a plain FIFO
where a type was refused, exactly when every one of them fits. -/
theorem callSafe_run_iff (hz : ℕ) (calls : List XtqCall) :
    Guarded callStep CallSafe (boot hz) calls ↔ Guarded callStep CallFits (boot hz) calls := by
  refine guarded_iff_of_invariant (I := fun s => s.Sound Everywhere) ?_
    (fun s c hs => hs.callSafe_iff c) (sound_boot hz)
  intro s c s' hs hsafe hstep
  cases hstep
  exact hs.call ((hs.callSafe_iff c).mp hsafe)

/-- The type after the last one leaves the handlers of XCP without a pipe. -/
theorem unknown_type_not_safe :
    ¬ Guarded callStep CallSafe (boot 1000)
      [.install ⟨0, 0⟩ (Hop.install 1000 0 ⟨8000, 10, 0, 50, 0, 3⟩) 3 ⟨some 8, 0, 0, true, true⟩] := by
  rintro ⟨⟨hsafe, -⟩, -⟩
  exact absurd (installable_of_safe hsafe).2.1 (by decide)

end XtqState

end Modelnet.FreeBSD
