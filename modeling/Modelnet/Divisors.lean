import Modelnet.HopTable

/-!
# What a crossing divides by

A crossing takes slots modulo `qsize` and divides the bytes of a packet by `bytespertick` or by
`1000*KBps`, computed in 32 bits. The last two are never 0 where they are used; `qsize` is what the
record says, or 0 where the load did not get as far as the record. The handlers check neither.
-/

namespace Modelnet

open PartialRun

/-- The divisors that `emulate_hop` meets on a packet that is not dropped. -/
def Hop.divisors (hop : Hop) (c : Call) : List ℤ :=
  let counted := (drained hop c.tick).counted c.len
  hop.qsize :: if hop.KBps ≠ 0 then
    [if (takeFragment counted c.len).1 ≠ 0 ∧ 50 < hop.bytespertick then (hop.bytespertick : ℤ)
      else (u32 (1000 * hop.KBps) : ℤ)]
    else []

/-- No packet makes the hop divide by 0. -/
def Hop.Divides (hop : Hop) : Prop := ∀ c, ∀ d ∈ hop.divisors c, d ≠ 0

/-- **Divisors.** Only `qsize` can be 0. -/
theorem Hop.divides_iff {hop : Hop} : hop.Divides ↔ hop.qsize ≠ 0 := by
  constructor
  · exact fun h => h ⟨0, 0, 0⟩ hop.qsize List.mem_cons_self
  · intro hq c d hd
    rcases List.mem_cons.mp hd with rfl | hd
    · exact hq
    · split_ifs at hd with hK hfast
      · rw [List.mem_singleton.mp hd]
        omega
      · have hu := u32_mul_ne_zero hK hop.KBps_le
        rw [List.mem_singleton.mp hd]
        exact_mod_cast hu
      · cases hd

/-- Every packet for such a hop stops the kernel, in both modules. -/
theorem emulateHop_of_not_divides {hop : Hop} (h : ¬ hop.Divides) (hz len tick randomVal : ℕ) :
    Linux.emulateHop hz hop len tick randomVal = none ∧
      FreeBSD.emulateHop hz hop len tick randomVal = none := by
  rw [Hop.divides_iff, not_not] at h
  unfold Linux.emulateHop FreeBSD.emulateHop
  exact ⟨if_pos h, if_pos h⟩

/-- What the writer has to see to: every record has slots, and the arrays of all hops but the last
are allocated. With no room for the table there are no hops. -/
def HopLoad.Divisible (l : HopLoad) : Prop :=
  l.tableOk = true → ∀ i : ℕ, (i : ℤ) < l.hopcount →
    (l.hops i).qsize.toInt ≠ 0 ∧ ((i : ℤ) + 1 < l.hopcount → l.ArraysOk i)

theorem HopLoad.qsize_loaded_ne_zero_iff {l : HopLoad} {hz i : ℕ} :
    (l.loaded hz i).qsize ≠ 0 ↔ (∀ j < i, l.ArraysOk j) ∧ (l.hops i).qsize.toInt ≠ 0 := by
  unfold loaded
  split_ifs with hall
  · exact ⟨fun h => ⟨hall, h⟩, fun h => h.2⟩
  · exact ⟨fun h => absurd rfl h, fun h => absurd h.1 hall⟩

theorem HopLoad.all_divides_iff {l : HopLoad} {hz : ℕ} : l.All hz Hop.Divides ↔ l.Divisible := by
  unfold All Divisible
  simp only [Hop.divides_iff, qsize_loaded_ne_zero_iff]
  constructor
  · intro hall hok i hi
    refine ⟨(hall hok i hi).2, fun hi' => ?_⟩
    have hnext := (hall hok (i + 1) (by push_cast; exact hi')).1
    exact hnext i (Nat.lt_succ_self i)
  · intro hall hok i hi
    exact ⟨fun j hj => (hall hok j (by omega)).2 (by omega), (hall hok i hi).1⟩

theorem Linux.divides_of_crossed {hz : ℕ} {hop hop' : Hop} (h : Crossed hz hop hop') :
    hop'.Divides ↔ hop.Divides := by
  rw [Hop.divides_iff, Hop.divides_iff, h.sameParams.qsize]

theorem FreeBSD.divides_of_changed {hz : ℕ} {hop hop' : Hop} (h : Changed hz hop hop') :
    hop'.Divides ↔ hop.Divides := by
  rw [Hop.divides_iff, Hop.divides_iff, h.ring.1]

/-- **Division by 0.** In every run of either module, no packet makes a hop divide by 0 exactly when
the last hop table that was loaded gave every hop slots and failed, if at all, at the table itself
or at the last hop. -/
theorem divides_iff_divisible (hz : ℕ) :
    (∀ es t, run (Linux.tableStep hz) PathTab.empty es = some t →
      (t.AllHops Hop.Divides ↔
        ∀ l, lastLoad Linux.TableEvent.hopLoad es = some l → l.Divisible)) ∧
    (∀ es t, run (FreeBSD.tableStep hz) PathTab.empty es = some t →
      (t.AllHops Hop.Divides ↔
        ∀ l, lastLoad FreeBSD.TableEvent.hopLoad es = some l → l.Divisible)) := by
  refine ⟨fun es t hrun => ?_, fun es t hrun => ?_⟩
  · rw [(Linux.stepsHops hz).allHops_iff (fun _ _ => Linux.divides_of_crossed) hrun]
    exact forall₂_congr fun l _ => HopLoad.all_divides_iff
  · rw [(FreeBSD.stepsHops hz).allHops_iff (fun _ _ => FreeBSD.divides_of_changed) hrun]
    exact forall₂_congr fun l _ => HopLoad.all_divides_iff

/-! ## A hop table without slots -/

/-- One record with this queue size. -/
def Linux.loadOne (qsize : Int32) : Linux.TableEvent :=
  .write (.hoptable ⟨true, 0, 12, true, 1, true, fun _ => ⟨8000, 10, 0, qsize, 0, 0⟩, true, true,
    fun _ => true, fun _ => true⟩)

/-- One record with this queue size. -/
def FreeBSD.loadOne (qsize : Int32) : FreeBSD.TableEvent :=
  .write (.hoptable ⟨0, true, true, 1, true, fun _ => ⟨8000, 10, 0, qsize, 0, 0⟩, true,
    fun _ => true, fun _ => true, 0⟩)

/-- With slots, no packet makes the hops divide by 0. -/
theorem divides_loadOne :
    (∃ t, run (Linux.tableStep 100) PathTab.empty [Linux.loadOne 10] = some t ∧
      t.AllHops Hop.Divides) ∧
    (∃ t, run (FreeBSD.tableStep 100) PathTab.empty [FreeBSD.loadOne 10] = some t ∧
      t.AllHops Hop.Divides) := by
  have hten : (10 : Int32).toInt = 10 := by decide
  refine ⟨⟨_, rfl, ((divides_iff_divisible 100).1 [Linux.loadOne 10] _ rfl).mpr ?_⟩,
    ⟨_, rfl, ((divides_iff_divisible 100).2 [FreeBSD.loadOne 10] _ rfl).mpr ?_⟩⟩
  · rintro l ⟨⟩ - i -
    exact ⟨ne_of_eq_of_ne hten (by decide), fun _ => ⟨rfl, rfl, hten.symm ▸ by decide⟩⟩
  · rintro l ⟨⟩ - i -
    exact ⟨ne_of_eq_of_ne hten (by decide), fun _ => ⟨rfl, rfl, hten.symm ▸ by decide⟩⟩

/-- Without, the first packet does, in both modules. -/
theorem not_divides_loadOne_zero :
    (∃ t hop, run (Linux.tableStep 100) PathTab.empty [Linux.loadOne 0] = some t ∧
      t.hops ⟨1, 0⟩ = some hop ∧ ¬ hop.Divides) ∧
    (∃ t hop, run (FreeBSD.tableStep 100) PathTab.empty [FreeBSD.loadOne 0] = some t ∧
      t.hops ⟨1, 0⟩ = some hop ∧ ¬ hop.Divides) := by
  have hlinux : ((run (Linux.tableStep 100) PathTab.empty [Linux.loadOne 0]).bind fun t =>
      t.hops ⟨1, 0⟩).map (fun hop => hop.qsize) = some 0 := by decide +kernel
  have hfreebsd : ((run (FreeBSD.tableStep 100) PathTab.empty [FreeBSD.loadOne 0]).bind fun t =>
      t.hops ⟨1, 0⟩).map (fun hop => hop.qsize) = some 0 := by decide +kernel
  constructor
  · obtain ⟨hop, h, hq⟩ := Option.map_eq_some_iff.mp hlinux
    obtain ⟨t, ht, h⟩ := Option.bind_eq_some_iff.mp h
    exact ⟨t, hop, ht, h, fun hd => hd ⟨0, 0, 0⟩ _ List.mem_cons_self hq⟩
  · obtain ⟨hop, h, hq⟩ := Option.map_eq_some_iff.mp hfreebsd
    obtain ⟨t, ht, h⟩ := Option.bind_eq_some_iff.mp h
    exact ⟨t, hop, ht, h, fun hd => hd ⟨0, 0, 0⟩ _ List.mem_cons_self hq⟩

end Modelnet
