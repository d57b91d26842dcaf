import Modelnet.Linux.Routes

/-!
# The ledger of structs and buffers

The log is the ledger of the packet structs and the buffers. A struct that was allocated is live
or was freed once; a buffer that came in got one verdict; a stolen buffer is live, or was handed
to the saved `okfn` or freed, once (`Ledger`). Every elementary step of the module books what it
does to the two heaps.
-/

namespace Modelnet.Linux

open Modelnet

/-! ## The books -/

/-- The log against the live structs and the live buffers, while the verdict on the buffer
`pending` is still out. -/
structure Books (log : List Obs) (pkt : PktId → Bool) (nextPkt : ℕ) (skb : SkbId → Bool)
    (nextSkb : ℕ) (pending : Option SkbId) : Prop where
  kmalloc : ∀ p : ℕ, log.count (.kmalloc p) = if p < nextPkt then 1 else 0
  kfree : ∀ p, log.count (.kfree p) + (pkt p).toNat = log.count (.kmalloc p)
  input : ∀ s : ℕ, log.count (.input s) = if s < nextSkb then 1 else 0
  verdict : ∀ s, log.count (.verdict s .accept) + log.count (.verdict s .stolen) +
    (if pending = some s then 1 else 0) = log.count (.input s)
  consumed : ∀ s, log.count (.okfn s) + log.count (.kfreeSkb s) + (skb s).toNat =
    log.count (.verdict s .stolen) + (if pending = some s then 1 else 0)

/-- An observation that is not booked. -/
def Obs.Unbooked : Obs → Prop
  | .path _ _ | .cross _ _ | .insert _ _ _ | .remove _ _ | .forward _ => True
  | _ => False

theorem count_concat (log : List Obs) (o o' : Obs) :
    (log ++ [o]).count o' = log.count o' + if o = o' then 1 else 0 := by
  rw [List.count_append, List.count_singleton]
  simp only [beq_iff_eq]

theorem handed_out_succ (n x : ℕ) :
    ((if x < n then 1 else 0) + if n = x then 1 else 0) = if x < n + 1 then 1 else 0 := by
  split_ifs <;> omega

namespace Books

variable {log : List Obs} {pkt : PktId → Bool} {nextPkt : ℕ} {skb : SkbId → Bool} {nextSkb : ℕ}
  {pending : Option SkbId} {p : PktId} {s : SkbId}

theorem empty : Books [] (fun _ => false) 0 (fun _ => false) 0 none := by
  constructor <;> intro x <;> simp

theorem unbooked (h : Books log pkt nextPkt skb nextSkb pending) (seen : List Obs)
    (hseen : ∀ o ∈ seen, o.Unbooked) : Books (log ++ seen) pkt nextPkt skb nextSkb pending := by
  have hcount : ∀ o, ¬ Obs.Unbooked o → (log ++ seen).count o = log.count o := by
    intro o ho
    rw [List.count_append, List.count_eq_zero.mpr fun hm => ho (hseen o hm), Nat.add_zero]
  constructor <;> intro x
  case kmalloc => rw [hcount _ id]; exact h.kmalloc x
  case kfree => rw [hcount _ id, hcount _ id]; exact h.kfree x
  case input => rw [hcount _ id]; exact h.input x
  case verdict => rw [hcount _ id, hcount _ id, hcount _ id]; exact h.verdict x
  case consumed => rw [hcount _ id, hcount _ id, hcount _ id]; exact h.consumed x

theorem malloc (h : Books log pkt nextPkt skb nextSkb pending) (hp : pkt nextPkt = false) :
    Books (log ++ [.kmalloc nextPkt]) (Function.update pkt nextPkt true) (nextPkt + 1) skb nextSkb
      pending := by
  constructor <;> intro x <;>
    simp only [count_concat, reduceCtorEq, if_false, Nat.add_zero, Obs.kmalloc.injEq]
  case kmalloc => rw [h.kmalloc x]; exact handed_out_succ nextPkt x
  case kfree =>
    have hx := h.kfree x
    by_cases hxp : nextPkt = x
    · subst hxp
      rw [hp] at hx
      rw [Function.update_self, if_pos rfl]
      exact congrArg (· + 1) hx
    · rw [Function.update_of_ne (Ne.symm hxp), if_neg hxp]
      exact hx
  case input => exact h.input x
  case verdict => exact h.verdict x
  case consumed => exact h.consumed x

theorem free (h : Books log pkt nextPkt skb nextSkb pending) (hp : pkt p = true) :
    Books (log ++ [.kfree p]) (Function.update pkt p false) nextPkt skb nextSkb pending := by
  constructor <;> intro x <;>
    simp only [count_concat, reduceCtorEq, if_false, Nat.add_zero, Obs.kfree.injEq]
  case kmalloc => exact h.kmalloc x
  case kfree =>
    have hx := h.kfree x
    by_cases hxp : p = x
    · subst hxp
      rw [hp] at hx
      rw [Function.update_self, if_pos rfl]
      exact hx
    · rw [Function.update_of_ne (Ne.symm hxp), if_neg hxp]
      exact hx
  case input => exact h.input x
  case verdict => exact h.verdict x
  case consumed => exact h.consumed x

/-- A buffer leaves modelnet: it is freed or handed to the `okfn`. -/
theorem give (h : Books log pkt nextPkt skb nextSkb pending) (hs : skb s = true) {o : Obs}
    (ho : o = .okfn s ∨ o = .kfreeSkb s) :
    Books (log ++ [o]) pkt nextPkt (Function.update skb s false) nextSkb pending := by
  have hgive : ∀ x, (log ++ [o]).count (.okfn x) + (log ++ [o]).count (.kfreeSkb x) =
      log.count (.okfn x) + log.count (.kfreeSkb x) + if s = x then 1 else 0 := by
    intro x
    rw [count_concat, count_concat]
    rcases ho with rfl | rfl <;>
      simp only [reduceCtorEq, if_false, Obs.okfn.injEq, Obs.kfreeSkb.injEq] <;> omega
  have hcount : ∀ o', (∀ x, o' ≠ .okfn x ∧ o' ≠ .kfreeSkb x) →
      (log ++ [o]).count o' = log.count o' := by
    intro o' ho'
    rw [count_concat, if_neg, Nat.add_zero]
    rintro rfl
    exact ho.elim (ho' s).1 (ho' s).2
  constructor <;> intro x
  case kmalloc => rw [hcount _ (by simp)]; exact h.kmalloc x
  case kfree => rw [hcount _ (by simp), hcount _ (by simp)]; exact h.kfree x
  case input => rw [hcount _ (by simp)]; exact h.input x
  case verdict =>
    rw [hcount _ (by simp), hcount _ (by simp), hcount _ (by simp)]
    exact h.verdict x
  case consumed =>
    have hx := h.consumed x
    rw [hgive, hcount _ (by simp)]
    by_cases hsx : s = x
    · subst hsx
      rw [hs] at hx
      rw [Function.update_self, if_pos rfl]
      exact hx
    · rw [Function.update_of_ne (Ne.symm hsx), if_neg hsx]
      exact hx

theorem arrive (h : Books log pkt nextPkt skb nextSkb none) (hs : skb nextSkb = false) :
    Books (log ++ [.input nextSkb]) pkt nextPkt (Function.update skb nextSkb true) (nextSkb + 1)
      (some nextSkb) := by
  constructor <;> intro x <;>
    simp only [count_concat, reduceCtorEq, if_false, Nat.add_zero, Obs.input.injEq,
      Option.some.injEq]
  case kmalloc => exact h.kmalloc x
  case kfree => exact h.kfree x
  case input => rw [h.input x]; exact handed_out_succ nextSkb x
  case verdict =>
    have hx := h.verdict x
    simp only [reduceCtorEq, if_false] at hx
    omega
  case consumed =>
    have hx := h.consumed x
    simp only [reduceCtorEq, if_false] at hx
    by_cases hsx : nextSkb = x
    · subst hsx
      rw [hs] at hx
      rw [Function.update_self, if_pos rfl]
      exact congrArg (· + 1) hx
    · rw [Function.update_of_ne (Ne.symm hsx), if_neg hsx]
      exact hx

theorem accept (h : Books log pkt nextPkt skb nextSkb (some s)) (hs : skb s = true) :
    Books (log ++ [.verdict s .accept]) pkt nextPkt (Function.update skb s false) nextSkb none := by
  constructor <;> intro x <;>
    simp only [count_concat, reduceCtorEq, if_false, Nat.add_zero, Obs.verdict.injEq, and_true,
      and_false]
  case kmalloc => exact h.kmalloc x
  case kfree => exact h.kfree x
  case input => exact h.input x
  case verdict =>
    have hx := h.verdict x
    simp only [Option.some.injEq] at hx
    omega
  case consumed =>
    have hx := h.consumed x
    simp only [Option.some.injEq] at hx
    by_cases hsx : s = x
    · subst hsx
      rw [hs, if_pos rfl] at hx
      rw [Function.update_self]
      exact Nat.succ.inj hx
    · rw [Function.update_of_ne (Ne.symm hsx)]
      rwa [if_neg hsx] at hx

theorem steal (h : Books log pkt nextPkt skb nextSkb (some s)) :
    Books (log ++ [.verdict s .stolen]) pkt nextPkt skb nextSkb none := by
  constructor <;> intro x <;>
    simp only [count_concat, reduceCtorEq, if_false, Nat.add_zero, Obs.verdict.injEq, and_true,
      and_false]
  case kmalloc => exact h.kmalloc x
  case kfree => exact h.kfree x
  case input => exact h.input x
  case verdict =>
    have hx := h.verdict x
    simp only [Option.some.injEq] at hx
    omega
  case consumed =>
    have hx := h.consumed x
    simp only [Option.some.injEq] at hx
    exact hx

end Books

/-! ## The books of the module -/

namespace Kernel

/-- The books balance. -/
def Ledger (k : Kernel) (pending : Option SkbId) : Prop :=
  Books k.log (fun p => (k.pkts p).isSome) k.nextPkt (fun s => (k.skbs s).isSome) k.nextSkb pending

variable {hz : ℕ} {k k' : Kernel} {p : PktId} {pkt : Packet} {s : SkbId} {pending : Option SkbId}

theorem isSome_update {α : Type*} (f : ℕ → Option α) (i : ℕ) (o : Option α) :
    (fun j => (Function.update f i o j).isSome) =
      Function.update (fun j => (f j).isSome) i o.isSome := by
  funext j
  by_cases hj : j = i
  · subst hj
    rw [Function.update_self, Function.update_self]
  · rw [Function.update_of_ne hj, Function.update_of_ne hj]

theorem ledger_load (jiffies : ℕ) (random : ℕ → ℕ) (tab : PathTab) :
    Ledger (load jiffies random tab) none := Books.empty

namespace Ledger

theorem consume (h : Ledger k pending) (hp : Holding k p pkt s) {seen : List Obs}
    (hseen : seen = [.okfn s, .forward p, .kfree p] ∨ seen = [.kfreeSkb s, .kfree p]) :
    Ledger (k.consume p s seen) pending := by
  have hpkt : (k.pkts p).isSome = true := by rw [hp.read]; rfl
  have hbooks : Books (k.log ++ seen) (Function.update (fun q => (k.pkts q).isSome) p false)
      k.nextPkt (Function.update (fun s => (k.skbs s).isSome) s false) k.nextSkb pending := by
    rcases hseen with rfl | rfl
    · have hgive := h.give hp.live (Or.inl rfl)
      have hforward := (hgive.unbooked [.forward p] (by simp [Obs.Unbooked])).free hpkt
      rw [List.append_assoc, List.append_assoc] at hforward
      exact hforward
    · have hgive := (h.give hp.live (Or.inr rfl)).free hpkt
      rw [List.append_assoc] at hgive
      exact hgive
  show Books _ (fun q => (Function.update k.pkts p none q).isSome) _
    (fun s' => (Function.update k.skbs s none s').isSome) _ _
  rw [isSome_update, isSome_update]
  exact hbooks

theorem nextHop (h : Ledger k pending) (hp : Holding k p pkt s)
    (hnext : NextHop hz k p pkt s k') : Ledger k' pending := by
  have hcross : ∀ ptr hop, Ledger (k.crossHop p ptr hop) pending := fun ptr hop =>
    h.unbooked [.cross p ptr] (by simp [Obs.Unbooked])
  cases hnext with
  | forward => exact h.consume hp (Or.inl rfl)
  | remote => exact h.consume hp (Or.inr rfl)
  | dropped => exact (hcross _ _).consume (hp.of_eq rfl rfl) (Or.inr rfl)
  | @queued path ptr hop hop' x due =>
    have hlive : (fun q => (Function.update k.pkts p (some (pkt.advance path)) q).isSome) =
        fun q => (k.pkts q).isSome := by
      rw [isSome_update, Function.update_eq_self_iff, hp.read]
      rfl
    show Books _ (fun q => (Function.update k.pkts p (some (pkt.advance path)) q).isSome) _ _ _ _
    rw [hlive]
    exact (hcross ptr hop').unbooked [.insert p due k.calendarTick]
      (by simp [Obs.Unbooked])

theorem start (h : Ledger k none) (hown : Owned k none) (skb : SkBuff) (okfn : Okfn)
    (arr : ℕ) : Ledger (k.start skb okfn arr) (some k.nextSkb) := by
  have hs : (k.skbs k.nextSkb).isSome = false := by rw [hown.freshSkb _ (Nat.le_refl _)]; rfl
  have hp : (k.pkts k.nextPkt).isSome = false := by rw [hown.fresh _ (Nat.le_refl _)]; rfl
  have hstart := ((h.arrive hs).malloc hp).unbooked [.path k.nextPkt arr]
    (by simp [Obs.Unbooked])
  show Books (k.log ++ [.input k.nextSkb, .kmalloc k.nextPkt] ++ [.path k.nextPkt arr])
    (fun q => (Function.update (Function.update k.pkts _ _) k.nextPkt _ q).isSome) _
    (fun s' => (Function.update k.skbs k.nextSkb _ s').isSome) _ _
  rw [Function.update_idem, isSome_update, isSome_update, List.append_assoc]
  rw [List.append_assoc, List.append_assoc] at hstart
  exact hstart

theorem input (h : Ledger k none) (hown : Owned k none) {skb : SkBuff} {okfn : Okfn}
    (hstep : InputStep hz k skb okfn k') : Ledger k' none := by
  have hs : (k.skbs k.nextSkb).isSome = false := by rw [hown.freshSkb _ (Nat.le_refl _)]; rfl
  have hp : (k.pkts k.nextPkt).isSome = false := by rw [hown.fresh _ (Nat.le_refl _)]; rfl
  have harrive := h.arrive hs
  cases hstep with
  | passed =>
    have haccept := harrive.accept (Function.update_self _ _ _)
    show Books _ _ _ (fun s' => (Function.update (Function.update k.skbs _ _) _ none s').isSome) _ _
    rw [Function.update_idem, isSome_update]
    rw [Function.update_idem] at haccept
    exact haccept
  | noPath =>
    have hfree := (harrive.malloc hp).free (Function.update_self _ _ _)
    have haccept := hfree.accept (Function.update_self _ _ _)
    show Books _ (fun q => (Function.update (Function.update k.pkts _ _) _ none q).isSome) _
      (fun s' => (Function.update (Function.update k.skbs _ _) _ none s').isSome) _ _
    rw [Function.update_idem, Function.update_idem, isSome_update, isSome_update]
    rw [Function.update_idem, Function.update_idem, List.append_assoc _ _ [Obs.kmalloc _]] at haccept
    exact haccept
  | started _ hnext =>
    exact ((h.start hown skb okfn _).nextHop (holding_start k skb okfn _) hnext).steal

end Ledger

theorem ledger_rule (hz : ℕ) : RunRule hz fun k => Owned k none ∧ Ledger k none where
  owned h := h.1
  drain {k p l pkt s k'} h hslot hp hnext _ := by
    have hdel : Ledger (k.listDel k.curSlot p) none :=
      h.2.unbooked [.remove p k.calendarTick] (by simp [Obs.Unbooked])
    exact ⟨(h.1.listDel hslot).nextHop hp hnext, hdel.nextHop hp hnext⟩
  tick h hslot := ⟨h.1.tick hslot, h.2⟩
  input h hstep := ⟨h.1.input hstep, h.2.input h.1 hstep⟩

end Kernel

end Modelnet.Linux
