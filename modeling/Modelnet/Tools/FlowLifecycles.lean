import Mathlib.Logic.Relation
import Modelnet.Tools.Traffic

/-!
# The lives of flows

Over all runs of `traffic` a flow goes through its phases one after the other: it waits, connects,
and sends, until it has expired or a `send` has failed (`mainLoop_lives`). Then it stays where it
is, so that at the end of the loop each flow is finished but for those whose `send` has failed
(`mainLoop_end`).
-/

namespace Modelnet.Tools.Traffic

/-! ## The phases -/

/-- Where a flow stands. -/
inductive Phase where
  | absent
  | waiting
  | connecting
  | sending
  | broken
  | finished
  deriving DecidableEq

inductive Phase.Next : Phase → Phase → Prop
  | connect : Next .waiting .connecting
  | send : Next .connecting .sending
  | fail : Next .connecting .broken
  | resend : Next .sending .sending
  | break : Next .sending .broken
  | expire : Next .sending .finished

theorem Phase.Next.ne_absent {x y : Phase} (h : Next x y) : x ≠ .absent ∧ y ≠ .absent := by
  cases h <;> decide

/-- One flow goes on. -/
def LifeStep (φ φ' : ℕ → Phase) : Prop :=
  ∃ p x, Phase.Next (φ p) x ∧ φ' = Function.update φ p x

/-- The queue and the sets hold a flow by its phase. -/
structure TracksAt (st : State) (p : ℕ) (phase : Phase) : Prop where
  queue : p ∈ st.q.map QueueEntry.flow ↔ phase = .waiting ∨ phase = .sending
  pending : p ∈ st.pending ↔ phase = .connecting
  connected : p ∈ st.connected ↔ phase = .sending ∨ phase = .broken
  finished : p ∈ st.finished ↔ phase = .finished
  failed : p ∈ st.failed ↔ phase = .broken
  socket : phase = .waiting ∨ phase = .sending → ((st.flow p).s = -1 ↔ phase = .waiting)
  fresh : phase = .waiting ∨ phase = .connecting →
    st.taken p = 0 ∧ (st.flow p).sent = 0 ∧ (st.flow p).lastSend = none

/-- The queue and the sets hold the flows by their phases, and none of them twice. -/
structure Tracks (st : State) (φ : ℕ → Phase) : Prop where
  queue : (st.q.map QueueEntry.flow).Nodup
  failed : st.failed.Nodup
  phase : ∀ p, TracksAt st p (φ p)

variable {fl : ℚ → ℚ} {st st' : State} {φ : ℕ → Phase} {now : ℚ} {p : ℕ} {r : SendResult}

/-! ## What an operation does -/

theorem service_cases (now : ℚ) (r : SendResult) (hs : (st.flow p).s ≠ -1) :
    (∃ n : Fin 1401, r = .sent n ∧ service fl now r st p =
      { st with
        flow := Function.update st.flow p
          { st.flow p with
            sent := (st.flow p).sent + Int32.ofNat n, lastSend := some (now, n) }
        q := ⟨fl (now + (st.flow p).delay fl n), p⟩ :: st.q
        taken := Function.update st.taken p (st.taken p + n) }) ∨
    (r = .again ∧ service fl now r st p =
      { st with q := ⟨fl (now + fl (1 / 1000000)), p⟩ :: st.q }) ∨
    (r = .error ∧ service fl now r st p = { st with failed := p :: st.failed }) := by
  unfold service
  dsimp only
  rw [if_neg hs]
  cases r with
  | sent n => exact .inl ⟨n, rfl, rfl⟩
  | again => exact .inr (.inl ⟨rfl, rfl⟩)
  | error => exact .inr (.inr ⟨rfl, rfl⟩)

theorem serve_cases {c : Cycle} (h : serve fl now c st = some st') :
    c.top ∈ st.q ∧ (∀ e ∈ st.q, c.top.t ≤ e.t) ∧
      (((st.flow c.top.flow).s = -1 ∧
        st' = State.connect c.socket { st with q := st.q.erase c.top } c.top.flow) ∨
      ((st.flow c.top.flow).s ≠ -1 ∧ (st.flow c.top.flow).isExpired fl now ∧
        st' = State.expire fl now { st with q := st.q.erase c.top } c.top.flow) ∨
      ((st.flow c.top.flow).s ≠ -1 ∧ ¬ (st.flow c.top.flow).isExpired fl now ∧
        st' = service fl now c.send { st with q := st.q.erase c.top } c.top.flow)) := by
  unfold serve at h
  split_ifs at h with htop
  dsimp only at h
  refine ⟨htop.1, htop.2, ?_⟩
  split_ifs at h with hs hexpired
  · exact .inl ⟨hs, (Option.some.inj h).symm⟩
  · exact .inr (.inl ⟨hs, hexpired, (Option.some.inj h).symm⟩)
  · exact .inr (.inr ⟨hs, hexpired, (Option.some.inj h).symm⟩)

theorem service_s (now : ℚ) (r : SendResult) (st : State) (p x : ℕ) :
    ((service fl now r st p).flow x).s = (st.flow x).s := by
  by_cases hs : (st.flow p).s = -1
  · unfold service
    rw [if_pos hs]
  · obtain ⟨n, -, heq⟩ | ⟨-, heq⟩ | ⟨-, heq⟩ := service_cases now r hs
    · rw [heq]
      by_cases hx : x = p
      · subst hx
        simp
      · simp [hx]
    · rw [heq]
    · rw [heq]

theorem service_pending (now : ℚ) (r : SendResult) (st : State) (p : ℕ) :
    (service fl now r st p).pending = st.pending := by
  by_cases hs : (st.flow p).s = -1
  · unfold service
    rw [if_pos hs]
  · obtain ⟨n, -, heq⟩ | ⟨-, heq⟩ | ⟨-, heq⟩ := service_cases now r hs <;> rw [heq]

theorem newConnection_s (now : ℚ) (r : SendResult) (st : State) (p x : ℕ) :
    ((newConnection fl now r st p).flow x).s = (st.flow x).s := by
  unfold newConnection
  rw [service_s]
  by_cases hx : x = p
  · subst hx
    simp
  · simp [hx]

theorem newConnection_pending (now : ℚ) (r : SendResult) (st : State) (p : ℕ) :
    (newConnection fl now r st p).pending = st.pending.erase p := by
  unfold newConnection
  rw [service_pending]

/-! ## Rules for turns and runs -/

theorem le_of_due {now : ℚ} {left : ℕ} {c : Cycle} (hdue : due now left st = true)
    (htop : ∀ e ∈ st.q, c.top.t ≤ e.t) : c.top.t ≤ now := by
  unfold due topTime at hdue
  rw [Bool.and_eq_true, Option.any_eq_true] at hdue
  obtain ⟨⟨t, ht, hle⟩, -⟩ := hdue
  obtain ⟨e, he, rfl⟩ := List.mem_map.mp (List.min?_mem ht)
  exact (htop e he).trans (of_decide_eq_true hle)

/-- The clock readings with which the inner loop of a turn works. -/
def Turn.clocks (t : Turn) : List Timeval := t.later :: t.cycles.map Cycle.now

/-- What the new connections and the turns of the inner loop keep, a turn keeps. -/
theorem turn_invariant {I : State → Prop} {t : Turn}
    (hnew : ∀ st p tv r, I st → p ∈ st.pending → InFdSet (st.flow p).s →
      I (newConnection fl (getTime fl tv) r st p))
    (hserve : ∀ st, ∀ tv ∈ t.clocks, ∀ c st', c ∈ t.cycles → I st → c.top.t ≤ getTime fl tv →
      serve fl (getTime fl tv) c st = some st' → I st')
    (h : turn fl st t = some st') (hI : I st) : I st' := by
  have hconnections : ∀ (ps : List ℕ) (st : State), I st → ps.Nodup →
      (∀ p ∈ ps, p ∈ st.pending ∧ InFdSet (st.flow p).s) →
      I (ps.foldl (fun st p => newConnection fl (getTime fl t.now) (t.sends p) st p) st) := by
    intro ps
    induction ps with
    | nil => exact fun st hI _ _ => hI
    | cons p ps ih =>
      intro st hI hnodup hps
      obtain ⟨⟨hp, hs⟩, hrest⟩ := List.forall_mem_cons.mp hps
      obtain ⟨hnotMem, hnodup⟩ := List.nodup_cons.mp hnodup
      refine ih _ (hnew st p t.now (t.sends p) hI hp hs) hnodup fun x hx => ?_
      rw [newConnection_s, newConnection_pending, Finset.mem_erase]
      exact ⟨⟨fun heq => hnotMem (heq ▸ hx), (hrest x hx).1⟩, (hrest x hx).2⟩
  have hinner : ∀ (cs : List Cycle) (left : ℕ) (tv : Timeval) (st : State), tv ∈ t.clocks →
      (∀ c ∈ cs, c ∈ t.cycles) → I st → innerLoop fl left (getTime fl tv) cs st = some st' →
      I st' := by
    intro cs
    induction cs with
    | nil =>
      intro left tv st _ _ hI h
      unfold innerLoop at h
      split_ifs at h
      exact Option.some.inj h ▸ hI
    | cons c cs ih =>
      intro left tv st htv hcs hI h
      obtain ⟨hc, hcs⟩ := List.forall_mem_cons.mp hcs
      unfold innerLoop at h
      split_ifs at h with hdue
      obtain ⟨st₁, h₁, hrest⟩ := Option.bind_eq_some_iff.mp h
      have hle := le_of_due hdue (serve_cases h₁).2.1
      exact ih (left - 1) c.now st₁ (List.mem_cons_of_mem _ (List.mem_map_of_mem hc)) hcs
        (hserve st tv htv c st₁ hc hI hle h₁) hrest
  unfold turn at h
  have hgo : st.goesOn := by
    by_contra hgo
    rw [if_neg hgo] at h
    cases h
  rw [if_pos hgo] at h
  obtain ⟨st₁, h₁, h⟩ := Option.bind_eq_some_iff.mp h
  have hI₁ : I st₁ := by
    unfold connections at h₁
    split_ifs at h₁
    · obtain ⟨ps, hps, rfl⟩ := Option.map_eq_some_iff.mp h₁
      unfold checkPending at hps
      split_ifs at hps with hset
      obtain rfl := Option.some.inj hps
      cases t.writable with
      | none => exact hI
      | some w =>
        refine hconnections _ st hI ((st.pending.sort_nodup _).filter _) fun p hp => ?_
        have hmem := (st.pending.mem_sort _).mp (List.mem_filter.mp hp).1
        exact ⟨hmem, hset p hmem⟩
    · exact Option.some.inj h₁ ▸ hI
  dsimp only at h
  split_ifs at h
  · exact Option.some.inj h ▸ hI₁
  · exact hinner t.cycles 50 t.later st₁ List.mem_cons_self (fun _ hc => hc) hI₁ h

/-! ## The steps of the phases -/

/-- The flow has not been touched. -/
structure Same (st st' : State) (x : ℕ) : Prop where
  queue : ∀ e : QueueEntry, e.flow = x → (e ∈ st'.q ↔ e ∈ st.q)
  pending : x ∈ st'.pending ↔ x ∈ st.pending
  connected : x ∈ st'.connected ↔ x ∈ st.connected
  finished : x ∈ st'.finished ↔ x ∈ st.finished
  failed : x ∈ st'.failed ↔ x ∈ st.failed
  flow : st'.flow x = st.flow x
  taken : st'.taken x = st.taken x

theorem Same.trans {st₁ st₂ st₃ : State} {x : ℕ} (h : Same st₁ st₂ x) (h' : Same st₂ st₃ x) :
    Same st₁ st₃ x where
  queue e he := (h'.queue e he).trans (h.queue e he)
  pending := h'.pending.trans h.pending
  connected := h'.connected.trans h.connected
  finished := h'.finished.trans h.finished
  failed := h'.failed.trans h.failed
  flow := h'.flow.trans h.flow
  taken := h'.taken.trans h.taken

theorem Same.mem_queue {x : ℕ} (h : Same st st' x) :
    x ∈ st'.q.map QueueEntry.flow ↔ x ∈ st.q.map QueueEntry.flow := by
  rw [List.mem_map, List.mem_map]
  exact exists_congr fun e => and_congr_left fun he => h.queue e he

theorem mem_cons_of_ne {q : List QueueEntry} {t : ℚ} {p x : ℕ} (hx : x ≠ p) (e : QueueEntry)
    (he : e.flow = x) : e ∈ (⟨t, p⟩ :: q : List QueueEntry) ↔ e ∈ q := by
  rw [List.mem_cons, or_iff_right]
  rintro rfl
  exact hx he.symm

theorem TracksAt.of_same {x : ℕ} {phase : Phase} (h : TracksAt st x phase) (hsame : Same st st' x) :
    TracksAt st' x phase where
  queue := hsame.mem_queue.trans h.queue
  pending := hsame.pending.trans h.pending
  connected := hsame.connected.trans h.connected
  finished := hsame.finished.trans h.finished
  failed := hsame.failed.trans h.failed
  socket := by
    rw [hsame.flow]
    exact h.socket
  fresh := by
    rw [hsame.flow, hsame.taken]
    exact h.fresh

/-- One flow goes on, the others are not touched. -/
theorem Tracks.step (h : Tracks st φ) {phase : Phase} (hsame : ∀ x, x ≠ p → Same st st' x)
    (hqueue : (st'.q.map QueueEntry.flow).Nodup) (hfailed : st'.failed.Nodup)
    (hnext : Phase.Next (φ p) phase) (hp : TracksAt st' p phase) :
    ∃ φ', LifeStep φ φ' ∧ Tracks st' φ' := by
  refine ⟨Function.update φ p phase, ⟨p, phase, hnext, rfl⟩, hqueue, hfailed, fun x => ?_⟩
  by_cases hx : x = p
  · subst hx
    rw [Function.update_self]
    exact hp
  · rw [Function.update_of_ne hx]
    exact (h.phase x).of_same (hsame x hx)

/-- The flow is connected and has been taken from where it was. -/
structure InHand (st : State) (p : ℕ) : Prop where
  queue : p ∉ st.q.map QueueEntry.flow
  pending : p ∉ st.pending
  connected : p ∈ st.connected
  finished : p ∉ st.finished
  failed : p ∉ st.failed
  socket : (st.flow p).s ≠ -1

theorem service_same (now : ℚ) (r : SendResult) (hs : (st.flow p).s ≠ -1) {x : ℕ} (hx : x ≠ p) :
    Same st (service fl now r st p) x := by
  obtain ⟨n, -, heq⟩ | ⟨-, heq⟩ | ⟨-, heq⟩ := service_cases now r hs
  · rw [heq]
    refine ⟨mem_cons_of_ne hx, ?_, ?_, ?_, ?_, ?_, ?_⟩ <;> simp [hx]
  · rw [heq]
    refine ⟨mem_cons_of_ne hx, ?_, ?_, ?_, ?_, ?_, ?_⟩ <;> simp
  · rw [heq]
    constructor <;> simp [hx]

/-- A flow that is served sends again, or is broken. -/
theorem InHand.service (h : InHand st p) (now : ℚ) (r : SendResult)
    (hqueue : (st.q.map QueueEntry.flow).Nodup) (hfailed : st.failed.Nodup) :
    ((Traffic.service fl now r st p).q.map QueueEntry.flow).Nodup ∧
      (Traffic.service fl now r st p).failed.Nodup ∧
        (TracksAt (Traffic.service fl now r st p) p .sending ∨
          TracksAt (Traffic.service fl now r st p) p .broken) := by
  obtain ⟨n, -, heq⟩ | ⟨-, heq⟩ | ⟨-, heq⟩ := service_cases now r h.socket
  · rw [heq]
    refine ⟨List.nodup_cons.mpr ⟨h.queue, hqueue⟩, hfailed, .inl ?_⟩
    constructor <;> simp [h.pending, h.connected, h.finished, h.failed, h.socket]
  · rw [heq]
    refine ⟨List.nodup_cons.mpr ⟨h.queue, hqueue⟩, hfailed, .inl ?_⟩
    constructor <;> simp [h.pending, h.connected, h.finished, h.failed, h.socket]
  · rw [heq]
    refine ⟨hqueue, List.nodup_cons.mpr ⟨h.failed, hfailed⟩, .inr ?_⟩
    constructor <;> simp [h.pending, h.connected, h.finished, show ¬ p ∈ _ from h.queue]

theorem inHand_newConnection (hat : TracksAt st p .connecting) (hs : (st.flow p).s ≠ -1) (now : ℚ) :
    InHand
      { st with
        pending := st.pending.erase p
        connected := insert p st.connected
        flow := Function.update st.flow p { st.flow p with start := now } } p where
  queue hq := by simpa using hat.queue.mp hq
  pending := by simp
  connected := by simp
  finished hf := by simpa using hat.finished.mp hf
  failed hf := by simpa using hat.failed.mp hf
  socket := by simpa using hs

theorem newConnection_same (now : ℚ) (r : SendResult) (hs : (st.flow p).s ≠ -1) {x : ℕ}
    (hx : x ≠ p) : Same st (newConnection fl now r st p) x := by
  have hs' : (Function.update st.flow p { st.flow p with start := now } p).s ≠ -1 := by
    rw [Function.update_self]
    exact hs
  refine Same.trans ?_ (service_same now r hs' hx)
  constructor <;> simp [hx]

theorem newConnection_tracks (h : Tracks st φ) (hp : p ∈ st.pending) (hs : (st.flow p).s ≠ -1)
    (now : ℚ) (r : SendResult) :
    ∃ φ', LifeStep φ φ' ∧ Tracks (newConnection fl now r st p) φ' := by
  have hat := h.phase p
  have hphase := hat.pending.mp hp
  have hsend : Phase.Next (φ p) .sending := hphase ▸ .send
  have hfail : Phase.Next (φ p) .broken := hphase ▸ .fail
  rw [hphase] at hat
  obtain ⟨hqueue, hfailed, hat'⟩ := (inHand_newConnection hat hs now).service now r h.queue h.failed
  have hsame : ∀ x, x ≠ p → Same st (newConnection fl now r st p) x := fun x hx =>
    newConnection_same now r hs hx
  rcases hat' with hat' | hat'
  · exact h.step hsame hqueue hfailed hsend hat'
  · exact h.step hsame hqueue hfailed hfail hat'

/-- What is left when the entry at the top has been taken. -/
theorem mem_erase_queue {q : List QueueEntry} {top : QueueEntry} (htop : top ∈ q)
    (hnodup : (q.map QueueEntry.flow).Nodup) :
    ((q.erase top).map QueueEntry.flow).Nodup ∧
      ∀ x, x ∈ (q.erase top).map QueueEntry.flow ↔ x ∈ q.map QueueEntry.flow ∧ x ≠ top.flow := by
  have hperm := (List.perm_cons_erase htop).map QueueEntry.flow
  rw [List.map_cons] at hperm
  obtain ⟨hnotMem, hrest⟩ := List.nodup_cons.mp (hperm.nodup_iff.mp hnodup)
  refine ⟨hrest, fun x => ?_⟩
  rw [hperm.mem_iff, List.mem_cons]
  constructor
  · exact fun hx => ⟨.inr hx, fun heq => hnotMem (heq ▸ hx)⟩
  · rintro ⟨hx | hx, hne⟩
    exacts [absurd hx hne, hx]

theorem serve_same {c : Cycle} (hserve : serve fl now c st = some st') {x : ℕ}
    (hx : x ≠ c.top.flow) : Same st st' x := by
  obtain ⟨-, -, hcases⟩ := serve_cases hserve
  have hpop : Same st { st with q := st.q.erase c.top } x := by
    refine ⟨fun e he => List.mem_erase_of_ne ?_, .rfl, .rfl, .rfl, .rfl, rfl, rfl⟩
    rintro rfl
    exact hx he.symm
  obtain ⟨-, rfl⟩ | ⟨-, -, rfl⟩ | ⟨hs, -, rfl⟩ := hcases
  · refine hpop.trans ?_
    unfold State.connect
    constructor <;> simp [hx]
  · refine hpop.trans ?_
    unfold State.expire
    constructor <;> simp [hx]
  · refine hpop.trans ?_
    apply service_same
    exacts [hs, hx]

theorem Tracks.top {c : Cycle} (h : Tracks st φ) (htop : c.top ∈ st.q) :
    ((st.flow c.top.flow).s = -1 → φ c.top.flow = .waiting) ∧
      ((st.flow c.top.flow).s ≠ -1 → φ c.top.flow = .sending) := by
  have hat := h.phase c.top.flow
  have hphase := hat.queue.mp (List.mem_map_of_mem htop)
  have hsocket := hat.socket hphase
  exact ⟨hsocket.mp, fun hs => hphase.resolve_left fun hw => hs (hsocket.mpr hw)⟩

/-- The flow that is served again, once it has been taken from the queue. -/
theorem inHand_top {c : Cycle} (h : Tracks st φ) (htop : c.top ∈ st.q)
    (hs : (st.flow c.top.flow).s ≠ -1) :
    InHand { st with q := st.q.erase c.top } c.top.flow := by
  obtain ⟨-, hmem⟩ := mem_erase_queue htop h.queue
  have hat := h.phase c.top.flow
  rw [(h.top htop).2 hs] at hat
  constructor <;> simp [hmem, hat.pending, hat.connected, hat.finished, hat.failed, hs]

theorem serve_tracks {c : Cycle} (h : Tracks st φ) (hserve : serve fl now c st = some st') :
    ∃ φ', LifeStep φ φ' ∧ Tracks st' φ' := by
  have hsame : ∀ x, x ≠ c.top.flow → Same st st' x := fun x hx => serve_same hserve hx
  obtain ⟨htop, -, hcases⟩ := serve_cases hserve
  obtain ⟨hqueue, hmem⟩ := mem_erase_queue htop h.queue
  obtain ⟨hwaiting, hsending⟩ := h.top htop
  have hat := h.phase c.top.flow
  obtain ⟨hs, rfl⟩ | ⟨hs, -, rfl⟩ | ⟨hs, -, rfl⟩ := hcases
  · have hnext : Phase.Next (φ c.top.flow) .connecting := hwaiting hs ▸ .connect
    rw [hwaiting hs] at hat
    obtain ⟨htaken, hsent, hlast⟩ := hat.fresh (.inl rfl)
    refine h.step hsame hqueue h.failed hnext ?_
    have hconnect : ((st.flow c.top.flow).connect c.socket).sent = 0 ∧
        ((st.flow c.top.flow).connect c.socket).lastSend = none := by
      unfold Flow.connect
      split_ifs
      exacts [⟨hsent, hlast⟩, ⟨hsent, hlast⟩]
    unfold State.connect
    constructor <;> simp [hmem, hat.connected, hat.finished, hat.failed, htaken, hconnect]
  · have hnext : Phase.Next (φ c.top.flow) .finished := hsending hs ▸ .expire
    rw [hsending hs] at hat
    refine h.step hsame hqueue h.failed hnext ?_
    unfold State.expire
    constructor <;> simp [hmem, hat.pending, hat.failed]
  · have hsend : Phase.Next (φ c.top.flow) .sending := hsending hs ▸ .resend
    have hfail : Phase.Next (φ c.top.flow) .broken := hsending hs ▸ .break
    obtain ⟨hqueue', hfailed', hat'⟩ := (inHand_top h htop hs).service now c.send hqueue h.failed
    rcases hat' with hat' | hat'
    · exact h.step hsame hqueue' hfailed' hsend hat'
    · exact h.step hsame hqueue' hfailed' hfail hat'

/-! ## Runs -/

theorem ne_of_inFdSet {s : ℤ} (h : InFdSet s) : s ≠ -1 := by
  unfold InFdSet at h
  omega

/-- A turn takes flows through their phases. -/
theorem turn_lives {t : Turn} (h : turn fl st t = some st') (htracks : Tracks st φ) :
    ∃ φ', Relation.ReflTransGen LifeStep φ φ' ∧ Tracks st' φ' := by
  refine turn_invariant
    (I := fun st => ∃ φ', Relation.ReflTransGen LifeStep φ φ' ∧ Tracks st φ') ?_ ?_ h
    ⟨φ, .refl, htracks⟩
  · rintro st p tv r ⟨φ₁, hsteps, h₁⟩ hp hs
    obtain ⟨φ₂, hstep, h₂⟩ := newConnection_tracks h₁ hp (ne_of_inFdSet hs) (getTime fl tv) r
    exact ⟨φ₂, hsteps.tail hstep, h₂⟩
  · rintro st tv - c st' - ⟨φ₁, hsteps, h₁⟩ - hserve
    obtain ⟨φ₂, hstep, h₂⟩ := serve_tracks h₁ hserve
    exact ⟨φ₂, hsteps.tail hstep, h₂⟩

/-- The flows of the file wait. -/
def startPhases (decls : List (ℕ × Decl)) (p : ℕ) : Phase :=
  if p ∈ decls.map Prod.fst then .waiting else .absent

theorem declare_same (t0 : ℚ) (st : State) (d : ℕ × Decl) {x : ℕ} (hx : x ≠ d.1) :
    Same st (declare fl t0 st d) x := by
  unfold declare
  refine ⟨mem_cons_of_ne hx, ?_, ?_, ?_, ?_, ?_, ?_⟩ <;> simp [hx]

theorem declare_tracksAt (t0 : ℚ) {d : ℕ × Decl} (h : TracksAt st d.1 .absent)
    (htaken : st.taken d.1 = 0) : TracksAt (declare fl t0 st d) d.1 .waiting := by
  unfold declare
  constructor <;> simp [Decl.flow, h.pending, h.connected, h.finished, h.failed, htaken]

theorem tracks_readFlows (t0 : ℚ) (decls : List (ℕ × Decl)) (hnodup : (decls.map Prod.fst).Nodup) :
    Tracks (readFlows fl t0 decls) (startPhases decls) ∧
      ∀ d ∈ decls, (readFlows fl t0 decls).flow d.1 = d.2.flow fl t0 := by
  have htaken : ∀ (decls : List (ℕ × Decl)) (p : ℕ), (readFlows fl t0 decls).taken p = 0 := by
    intro decls p
    unfold readFlows
    refine List.foldlRecOn (motive := fun st : State => st.taken p = 0) decls _ rfl ?_
    exact fun _ h _ _ => h
  induction decls using List.reverseRecOn with
  | nil =>
    refine ⟨⟨List.nodup_nil, List.nodup_nil, fun p => ?_⟩, nofun⟩
    constructor <;> simp [readFlows, startPhases]
  | append_singleton decls d ih =>
    rw [List.map_append, List.map_singleton, List.nodup_append] at hnodup
    obtain ⟨hnodup, -, hne⟩ := hnodup
    obtain ⟨htracks, hflow⟩ := ih hnodup
    have hnew : d.1 ∉ decls.map Prod.fst := fun hd => hne _ hd _ (List.mem_singleton_self _) rfl
    have hread : readFlows fl t0 (decls ++ [d]) = declare fl t0 (readFlows fl t0 decls) d := by
      unfold readFlows
      rw [List.foldl_append]
      rfl
    have hat := htracks.phase d.1
    rw [show startPhases decls d.1 = .absent from if_neg hnew] at hat
    have hqueue : d.1 ∉ (readFlows fl t0 decls).q.map QueueEntry.flow := fun hq => by
      simpa using hat.queue.mp hq
    rw [hread]
    refine ⟨⟨List.nodup_cons.mpr ⟨hqueue, htracks.queue⟩, htracks.failed, fun p => ?_⟩, ?_⟩
    · by_cases hp : p = d.1
      · subst hp
        rw [show startPhases (decls ++ [d]) d.1 = .waiting from if_pos (by simp)]
        exact declare_tracksAt t0 hat (htaken decls d.1)
      · have hphase : startPhases (decls ++ [d]) p = startPhases decls p := by
          unfold startPhases
          rw [List.map_append, List.map_singleton]
          exact if_congr (by simp [hp]) rfl rfl
        rw [hphase]
        exact (htracks.phase p).of_same (declare_same t0 _ d hp)
    · intro d' hd'
      rcases List.mem_append.mp hd' with hold | hlast
      · have hne' : d'.1 ≠ d.1 := fun heq => hnew (heq ▸ List.mem_map_of_mem hold)
        rw [(declare_same t0 _ d hne').flow, hflow d' hold]
      · rw [List.mem_singleton.mp hlast]
        exact Function.update_self ..

theorem mem_queue_readFlows {t0 : ℚ} {decls : List (ℕ × Decl)} {e : QueueEntry}
    (he : e ∈ (readFlows fl t0 decls).q) :
    ∃ d, (e.flow, d) ∈ decls ∧ e.t = (d.flow fl t0).start := by
  induction decls using List.reverseRecOn with
  | nil => exact absurd he List.not_mem_nil
  | append_singleton decls d ih =>
    unfold readFlows at he ih
    rw [List.foldl_append] at he
    rcases List.mem_cons.mp he with rfl | he
    · exact ⟨d.2, by simp, rfl⟩
    · obtain ⟨d', hd', ht⟩ := ih he
      exact ⟨d', List.mem_append_left _ hd', ht⟩

/-- The phases at the end of a run from the flow file. -/
theorem exists_phases {t0 : ℚ} {decls : List (ℕ × Decl)} {turns : List Turn}
    (hnodup : (decls.map Prod.fst).Nodup) (h : mainLoop fl t0 decls turns = some st) :
    ∃ φ, Relation.ReflTransGen LifeStep (startPhases decls) φ ∧ Tracks st φ := by
  refine PartialRun.run_invariant
    (I := fun st => ∃ φ, Relation.ReflTransGen LifeStep (startPhases decls) φ ∧ Tracks st φ) ?_ h
    ⟨_, .refl, (tracks_readFlows t0 decls hnodup).1⟩
  rintro st t st' ⟨φ, hsteps, htracks⟩ hturn
  obtain ⟨φ', hsteps', htracks'⟩ := turn_lives hturn htracks
  exact ⟨φ', hsteps.trans hsteps', htracks'⟩

/-- At any two points of a run from the flow file the queue and the sets hold every flow by its
phase, and between them the flows only go through their phases one after the other. -/
theorem mainLoop_lives {t0 : ℚ} {decls : List (ℕ × Decl)} {turns more : List Turn}
    (hnodup : (decls.map Prod.fst).Nodup) (h : mainLoop fl t0 decls turns = some st)
    (h' : mainLoop fl t0 decls (turns ++ more) = some st') :
    ∃ φ φ', Tracks st φ ∧ Tracks st' φ' ∧ Relation.ReflTransGen LifeStep (startPhases decls) φ ∧
      Relation.ReflTransGen LifeStep φ φ' := by
  obtain ⟨φ, hsteps, htracks⟩ := exists_phases hnodup h
  unfold mainLoop at h h'
  rw [PartialRun.run_append, h, Option.bind_some] at h'
  obtain ⟨φ', hmore, htracks'⟩ := PartialRun.run_invariant
    (I := fun st => ∃ φ', Relation.ReflTransGen LifeStep φ φ' ∧ Tracks st φ')
    (fun s t s' hI hturn => by
      obtain ⟨φ₁, hsteps₁, htracks₁⟩ := hI
      obtain ⟨φ₂, hsteps₂, htracks₂⟩ := turn_lives hturn htracks₁
      exact ⟨φ₂, hsteps₁.trans hsteps₂, htracks₂⟩)
    h' ⟨φ, .refl, htracks⟩
  exact ⟨φ, φ', htracks, htracks', hsteps, hmore⟩

/-- A kilobyte to port 80, as one `send`. -/
def kilobyte : List (ℕ × Decl) := [(0, ⟨1, 80, 0, -1, 128, 1024⟩)]

/-- The flow begins its connection, and sends; a second later it expires. -/
def kilobyteTurns : List Turn :=
  [⟨⟨0, 0⟩, none, fun _ => .again, ⟨0, 0⟩, [⟨⟨0, 0⟩, 3, .again, ⟨0, 0⟩⟩]⟩,
    ⟨⟨0, 0⟩, some fun _ => true, fun _ => .sent 1024, ⟨0, 0⟩, []⟩,
    ⟨⟨1, 0⟩, none, fun _ => .again, ⟨1, 0⟩, [⟨⟨1 / 16, 0⟩, 3, .again, ⟨1, 0⟩⟩]⟩]

theorem mem_kilobyte : (0, (⟨1, 80, 0, -1, 128, 1024⟩ : Decl)) ∈ kilobyte :=
  List.mem_singleton_self _

theorem exists_kilobyte (k : Fin 4) :
    ∃ st, mainLoop id 0 kilobyte (kilobyteTurns.take k) = some st ∧ (st.goesOn ↔ k ≠ 3) := by
  have h : ∀ k : Fin 4, (mainLoop id 0 kilobyte (kilobyteTurns.take k)).map
      (fun st => decide st.goesOn) = some (decide (k ≠ 3)) := by decide +kernel
  obtain ⟨st, hst, hgoesOn⟩ := Option.map_eq_some_iff.mp (h k)
  exact ⟨st, hst, decide_eq_decide.mp hgoesOn⟩

theorem mainLoop_lives_kilobyte : ∃ st st',
    mainLoop id 0 kilobyte (kilobyteTurns.take 1) = some st ∧
      mainLoop id 0 kilobyte kilobyteTurns = some st' ∧
      ∃ φ φ', Tracks st φ ∧ Tracks st' φ' ∧ Relation.ReflTransGen LifeStep φ φ' := by
  obtain ⟨st, hst, -⟩ := exists_kilobyte 1
  obtain ⟨st', hst', -⟩ := exists_kilobyte 3
  have hsplit : mainLoop id 0 kilobyte (kilobyteTurns.take 1 ++ kilobyteTurns.drop 1) = some st' :=
    hst'
  obtain ⟨φ, φ', h, h', -, hsteps⟩ := mainLoop_lives (by decide) hst hsplit
  exact ⟨st, st', hst, hst', φ, φ', h, h', hsteps⟩

/-- What the steps of a flow keep holds of it in every run from the flow file. -/
theorem mainLoop_flow {t0 : ℚ} {decls : List (ℕ × Decl)} {turns : List Turn} {J : State → Prop}
    (hnodup : (decls.map Prod.fst).Nodup) (h : mainLoop fl t0 decls turns = some st)
    (hinit : J (readFlows fl t0 decls)) (hsame : ∀ st st', Same st st' p → J st → J st')
    (hnew : ∀ st tv r, TracksAt st p .connecting → InFdSet (st.flow p).s → J st →
      J (newConnection fl (getTime fl tv) r st p))
    (hconnect : ∀ st q, ∀ t ∈ turns, ∀ c ∈ t.cycles, TracksAt st p .waiting →
      (∀ e ∈ q, e.flow ≠ p) → (∃ e ∈ st.q, e.flow = p ∧ ∃ tv ∈ t.clocks, e.t ≤ getTime fl tv) →
      J st → J (State.connect c.socket { st with q } p))
    (hexpire : ∀ st q tv, TracksAt st p .sending → (∀ e ∈ q, e.flow ≠ p) →
      (st.flow p).isExpired fl (getTime fl tv) → J st →
      J (State.expire fl (getTime fl tv) { st with q } p))
    (hservice : ∀ st q tv r, TracksAt st p .sending → (∀ e ∈ q, e.flow ≠ p) →
      (∃ e ∈ st.q, e.flow = p ∧ e.t ≤ getTime fl tv) →
      ¬ (st.flow p).isExpired fl (getTime fl tv) → J st →
      J (service fl (getTime fl tv) r { st with q } p)) : J st := by
  have hturn : ∀ st t st', t ∈ turns → (∃ φ, Tracks st φ ∧ J st) → turn fl st t = some st' →
      ∃ φ, Tracks st' φ ∧ J st' := by
    intro st t st' ht hI hstep
    refine turn_invariant (I := fun st => ∃ φ, Tracks st φ ∧ J st) ?_ ?_ hstep hI
    · rintro st q tv r ⟨φ, htracks, hJ⟩ hq hs
      obtain ⟨φ', -, htracks'⟩ :=
        newConnection_tracks htracks hq (ne_of_inFdSet hs) (getTime fl tv) r
      refine ⟨φ', htracks', ?_⟩
      by_cases hp : p = q
      · subst hp
        have hat := htracks.phase p
        rw [hat.pending.mp hq] at hat
        exact hnew st tv r hat hs hJ
      · exact hsame _ _ (newConnection_same _ r (ne_of_inFdSet hs) hp) hJ
    · rintro st tv htv c st' hc ⟨φ, htracks, hJ⟩ hle hserve
      obtain ⟨φ', -, htracks'⟩ := serve_tracks htracks hserve
      refine ⟨φ', htracks', ?_⟩
      by_cases hp : p = c.top.flow
      · obtain ⟨htop, -, hcases⟩ := serve_cases hserve
        obtain ⟨hwaiting, hsending⟩ := htracks.top htop
        have hgone : ∀ e ∈ st.q.erase c.top, e.flow ≠ p := by
          intro e he heq
          have hmem := ((mem_erase_queue htop htracks.queue).2 e.flow).mp (List.mem_map_of_mem he)
          exact hmem.2 (heq.trans hp)
        have hat := htracks.phase p
        rw [← hp] at hcases hwaiting hsending
        obtain ⟨hs, rfl⟩ | ⟨hs, hexpired, rfl⟩ | ⟨hs, hexpired, rfl⟩ := hcases
        · rw [hwaiting hs] at hat
          exact hconnect st _ t ht c hc hat hgone ⟨c.top, htop, hp.symm, tv, htv, hle⟩ hJ
        · rw [hsending hs] at hat
          exact hexpire st _ tv hat hgone hexpired hJ
        · rw [hsending hs] at hat
          exact hservice st _ tv c.send hat hgone ⟨c.top, htop, hp.symm, hle⟩ hexpired hJ
      · exact hsame _ _ (serve_same hserve hp) hJ
  have hrun : ∀ (ts : List Turn) (s : State), (∀ t ∈ ts, t ∈ turns) →
      (∃ φ, Tracks s φ ∧ J s) → PartialRun.run (turn fl) s ts = some st →
      ∃ φ, Tracks st φ ∧ J st := by
    intro ts
    induction ts with
    | nil =>
      intro s _ hI hrun
      exact Option.some.inj hrun ▸ hI
    | cons t ts ih =>
      intro s hts hI hrun
      obtain ⟨ht, hts⟩ := List.forall_mem_cons.mp hts
      obtain ⟨s₁, hs₁, hrun⟩ := Option.bind_eq_some_iff.mp hrun
      exact ih s₁ hts (hturn s t s₁ ht hI hs₁) hrun
  obtain ⟨-, -, hJ⟩ := hrun turns _ (fun _ ht => ht)
    ⟨_, (tracks_readFlows t0 decls hnodup).1, hinit⟩ h
  exact hJ

theorem absent_iff {φ φ' : ℕ → Phase} (h : Relation.ReflTransGen LifeStep φ φ') (p : ℕ) :
    φ' p = .absent ↔ φ p = .absent := by
  induction h with
  | refl => rfl
  | tail _ hstep ih =>
    obtain ⟨q, x, hnext, rfl⟩ := hstep
    rw [← ih]
    by_cases hp : p = q
    · subst hp
      rw [Function.update_self]
      exact ⟨fun hx => absurd hx hnext.ne_absent.2, fun hold => absurd hold hnext.ne_absent.1⟩
    · rw [Function.update_of_ne hp]

/-- When the loop has ended, each flow has either expired or met an error of `send`, so that
`traffic` reports all flows but these. -/
theorem mainLoop_end {t0 : ℚ} {decls : List (ℕ × Decl)} {turns : List Turn}
    (hnodup : (decls.map Prod.fst).Nodup) (h : mainLoop fl t0 decls turns = some st)
    (hend : ¬ st.goesOn) :
    (∀ p, p ∈ decls.map Prod.fst ↔ (p ∈ st.finished ∨ p ∈ st.failed)) ∧
      (∀ p, ¬ (p ∈ st.finished ∧ p ∈ st.failed)) ∧
      st.finished.card + st.failed.length = decls.length := by
  obtain ⟨φ, hsteps, htracks⟩ := exists_phases hnodup h
  have hidle : st.pending = ∅ ∧ st.q = [] := by
    unfold State.goesOn at hend
    rw [not_or, not_not] at hend
    exact ⟨Finset.not_nonempty_iff_eq_empty.mp hend.1, hend.2⟩
  have hcover : ∀ p, p ∈ decls.map Prod.fst ↔ (p ∈ st.finished ∨ p ∈ st.failed) := by
    intro p
    have hat := htracks.phase p
    have hqueue := hat.queue
    have hpending := hat.pending
    rw [hidle.2] at hqueue
    rw [hidle.1] at hpending
    have habsent := absent_iff hsteps p
    unfold startPhases at habsent
    rw [hat.finished, hat.failed]
    cases hphase : φ p <;> simp_all
  have hdisjoint : ∀ p, ¬ (p ∈ st.finished ∧ p ∈ st.failed) := by
    rintro p ⟨hfinished, hfailed⟩
    have hat := htracks.phase p
    have hphase := hat.finished.mp hfinished
    rw [hat.failed, hphase] at hfailed
    cases hfailed
  refine ⟨hcover, hdisjoint, ?_⟩
  have hunion : (decls.map Prod.fst).toFinset = st.finished ∪ st.failed.toFinset := by
    ext p
    rw [List.mem_toFinset, hcover, Finset.mem_union, List.mem_toFinset]
  have hcard := congrArg Finset.card hunion
  rw [List.toFinset_card_of_nodup hnodup, List.length_map, Finset.card_union_of_disjoint,
    List.toFinset_card_of_nodup htracks.failed] at hcard
  · exact hcard.symm
  · rw [Finset.disjoint_left]
    intro p hfinished hfailed
    exact hdisjoint p ⟨hfinished, List.mem_toFinset.mp hfailed⟩

theorem mainLoop_end_kilobyte : ∃ st, mainLoop id 0 kilobyte kilobyteTurns = some st ∧
    st.finished.card + st.failed.length = 1 := by
  obtain ⟨st, hst, hgoesOn⟩ := exists_kilobyte 3
  exact ⟨st, hst, (mainLoop_end (by decide) hst (by simp [hgoesOn])).2.2⟩

end Modelnet.Tools.Traffic
