import Mathlib.Data.List.Nodup
import Mathlib.Data.List.Pairwise

/-!
# Leases

Things that are kept under a key until they expire, in the order in which they were taken in, with a
ticket for each that may come back once, late, or never. As long as a ticket has not expired, what it
stands for is still kept under its key (`Valid.kept`), and nothing else is (`Valid.unique`), although
keys are used again.
-/

/-! ## Sorted lists -/

namespace List.Pairwise

variable {α : Type*} {f : α → ℕ} {l : List α}

/-- On a sorted list, dropping the small ones from the front drops all of them. -/
theorem dropWhile_le (h : l.Pairwise fun a b => f a ≤ f b) (n : ℕ) :
    (l.dropWhile fun a => f a ≤ n) = l.filter fun a => n < f a := by
  induction l with
  | nil => rfl
  | cons a l ih =>
    obtain ⟨hle, hl⟩ := List.pairwise_cons.mp h
    by_cases ha : f a ≤ n
    · rw [List.dropWhile_cons_of_pos (by simpa using ha),
        List.filter_cons_of_neg (by simpa using ha), ih hl]
    · rw [List.dropWhile_cons_of_neg (by simpa using ha), List.filter_eq_self.mpr]
      intro b hb
      rcases List.mem_cons.mp hb with rfl | hb
      · simpa using ha
      · exact decide_eq_true (Nat.lt_of_lt_of_le (Nat.not_le.mp ha) (hle b hb))

end List.Pairwise

/-! ## Leases -/

/-- What is kept under a key until it expires; also the ticket for it. The tag says what it is. -/
structure Lease (κ τ : Type*) where
  key : κ
  tag : τ
  expire : ℕ

/-- What is kept, in order, and the tickets that are out. -/
structure Leases (κ τ : Type*) where
  held : List (Lease κ τ)
  out : List (Lease κ τ)

namespace Leases

variable {κ τ : Type*} {t : Leases κ τ} {now limit : ℕ}

/-- The leases at the time `now`, when a new one is granted until `limit`. -/
structure Valid (now limit : ℕ) (t : Leases κ τ) : Prop where
  keys : (t.held.map Lease.key).Nodup
  sorted : t.held.Pairwise fun a b => a.expire ≤ b.expire
  bound : ∀ l ∈ t.held, l.expire ≤ limit
  kept : ∀ l ∈ t.out, now < l.expire → l ∈ t.held
  once : t.out.Pairwise fun a b => now < a.expire → now < b.expire → a.key ≠ b.key

theorem valid_nil (now limit : ℕ) : Valid now limit (⟨[], []⟩ : Leases κ τ) :=
  ⟨List.nodup_nil, .nil, fun _ h => absurd h List.not_mem_nil,
    fun _ h => absurd h List.not_mem_nil, .nil⟩

theorem Valid.eq_of_key_eq (h : t.Valid now limit) {a b : Lease κ τ} (ha : a ∈ t.held)
    (hb : b ∈ t.held) (hkey : a.key = b.key) : a = b :=
  List.inj_on_of_nodup_map h.keys ha hb hkey

/-- **A ticket that has not expired finds what it stands for**, and nothing else. -/
theorem Valid.unique (h : t.Valid now limit) {l l' : Lease κ τ} (hl : l ∈ t.out)
    (hexpire : now < l.expire) (hl' : l' ∈ t.held) (hkey : l'.key = l.key) : l' = l :=
  h.eq_of_key_eq hl' (h.kept l hl hexpire) hkey

/-! ## The operations -/

theorem Valid.tick (h : t.Valid now limit) {now' limit' : ℕ} (hle : now ≤ now')
    (hlimit : limit ≤ limit') : t.Valid now' limit' where
  keys := h.keys
  sorted := h.sorted
  bound := fun l hl => Nat.le_trans (h.bound l hl) hlimit
  kept := fun l hl hexpire => h.kept l hl (Nat.lt_of_le_of_lt hle hexpire)
  once := h.once.imp fun {_ _} hab ha hb =>
    hab (Nat.lt_of_le_of_lt hle ha) (Nat.lt_of_le_of_lt hle hb)

/-- Something is taken in, and a ticket for it goes out. -/
def grant (t : Leases κ τ) (l : Lease κ τ) : Leases κ τ := ⟨t.held ++ [l], t.out ++ [l]⟩

theorem Valid.grant (h : t.Valid now limit) {l : Lease κ τ} (hkey : l.key ∉ t.held.map Lease.key)
    (hexpire : l.expire = limit) : (t.grant l).Valid now limit := by
  have hnew : ∀ a ∈ t.out, now < a.expire → a.key ≠ l.key := by
    intro a ha hunexpired heq
    exact hkey (heq ▸ List.mem_map_of_mem (h.kept a ha hunexpired))
  refine ⟨?_, ?_, ?_, ?_, ?_⟩
  · show ((t.held ++ [l]).map Lease.key).Nodup
    rw [List.map_append]
    exact List.Nodup.append h.keys (List.nodup_singleton _) (List.disjoint_singleton.mpr hkey)
  · refine List.pairwise_append.mpr ⟨h.sorted, List.pairwise_singleton _ _, ?_⟩
    intro a ha b hb
    rw [List.mem_singleton.mp hb, hexpire]
    exact h.bound a ha
  · intro a ha
    rcases List.mem_append.mp ha with ha | ha
    · exact h.bound a ha
    · rw [List.mem_singleton.mp ha]
      exact Nat.le_of_eq hexpire
  · intro a ha hunexpired
    rcases List.mem_append.mp ha with ha | ha
    · exact List.mem_append_left _ (h.kept a ha hunexpired)
    · exact List.mem_append_right _ ha
  · refine List.pairwise_append.mpr ⟨h.once, List.pairwise_singleton _ _, ?_⟩
    intro a ha b hb hunexpired _
    rw [List.mem_singleton.mp hb]
    exact hnew a ha hunexpired

theorem Valid.lose (h : t.Valid now limit) {out : List (Lease κ τ)} (hout : out.Sublist t.out) :
    Valid now limit (⟨t.held, out⟩ : Leases κ τ) where
  keys := h.keys
  sorted := h.sorted
  bound := h.bound
  kept := fun l hl => h.kept l (hout.subset hl)
  once := h.once.sublist hout

/-- What is kept without a ticket that could still come back is given up. -/
theorem Valid.release (h : t.Valid now limit) {held : List (Lease κ τ)}
    (hheld : held.Sublist t.held)
    (hout : ∀ l ∈ t.out, now < l.expire → l ∈ t.held → l ∈ held) :
    Valid now limit (⟨held, t.out⟩ : Leases κ τ) where
  keys := h.keys.sublist (hheld.map _)
  sorted := h.sorted.sublist hheld
  bound := fun l hl => h.bound l (hheld.subset hl)
  kept := fun l hl hexpire => hout l hl hexpire (h.kept l hl hexpire)
  once := h.once

/-- What has expired is given up, from the front. -/
def flush (t : Leases κ τ) (now : ℕ) : Leases κ τ :=
  ⟨t.held.dropWhile fun l => l.expire ≤ now, t.out⟩

theorem Valid.flush_held (h : t.Valid now limit) :
    (t.flush now).held = t.held.filter fun l => now < l.expire :=
  h.sorted.dropWhile_le now

theorem Valid.flush (h : t.Valid now limit) : (t.flush now).Valid now limit := by
  refine h.release ?_ ?_
  · exact List.dropWhile_sublist _
  · intro l hl hexpire hmem
    show l ∈ (t.flush now).held
    rw [h.flush_held]
    exact List.mem_filter.mpr ⟨hmem, decide_eq_true hexpire⟩

/-! ## A ticket comes back -/

/-- The first ticket with this key and this expiry is taken in. -/
def redeem [DecidableEq κ] (out : List (Lease κ τ)) (key : κ) (expire : ℕ) : List (Lease κ τ) :=
  out.eraseP fun l => l.key = key ∧ l.expire = expire

variable [DecidableEq κ] {key : κ} {expire : ℕ}

theorem redeem_sublist (out : List (Lease κ τ)) (key : κ) (expire : ℕ) :
    (redeem out key expire).Sublist out := List.eraseP_sublist

/-- A ticket that was out and has not expired leaves no other one for its key. -/
theorem Valid.key_ne_of_mem_redeem (h : t.Valid now limit) (hexpire : now < expire)
    (hout : ∃ l ∈ t.out, l.key = key ∧ l.expire = expire) :
    ∀ l ∈ redeem t.out key expire, now < l.expire → l.key ≠ key := by
  obtain ⟨l, hl, hkey⟩ := hout
  obtain ⟨a, front, rest, -, hmatch, hsplit, herase⟩ :=
    List.exists_of_eraseP (p := fun l : Lease κ τ => decide (l.key = key ∧ l.expire = expire)) hl
      (decide_eq_true hkey)
  obtain ⟨hakey, haexpire⟩ := of_decide_eq_true hmatch
  have hunexpired : now < a.expire := haexpire ▸ hexpire
  have honce := h.once
  rw [hsplit] at honce
  obtain ⟨-, hrest, hfront⟩ := List.pairwise_append.mp honce
  intro b hb hb' heq
  have hb : b ∈ front ++ rest := herase ▸ hb
  rcases List.mem_append.mp hb with hb | hb
  · exact hfront b hb a List.mem_cons_self hb' hunexpired (heq.trans hakey.symm)
  · exact (List.pairwise_cons.mp hrest).1 b hb hunexpired hb' (hakey.trans heq.symm)

/-- What a ticket stands for is given up when the ticket has come back. -/
theorem Valid.redeem_release (h : t.Valid now limit) (hexpire : now < expire)
    (hout : ∃ l ∈ t.out, l.key = key ∧ l.expire = expire) :
    Valid now limit (⟨t.held.filter fun l => l.key ≠ key, redeem t.out key expire⟩ :
      Leases κ τ) := by
  refine (h.lose (redeem_sublist t.out key expire)).release List.filter_sublist ?_
  intro l hl hunexpired hmem
  exact List.mem_filter.mpr
    ⟨hmem, decide_eq_true (h.key_ne_of_mem_redeem hexpire hout l hl hunexpired)⟩

end Leases
