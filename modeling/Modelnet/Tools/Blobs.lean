import Modelnet.Lib.Bins
import Modelnet.Lib.Run
import Modelnet.Lib.Worklist
import Modelnet.Tools.PartitionerInput

/-!
# Growing blobs

`blob_assignment` gives each part an edge and lets the parts grow: an edge of the frontier takes for
its part the edges next to it that have none, and edges of parts that are too large. Every edge that
is taken brings the parts closer to an end, unless it has no weight and goes from one part that is
too large to another one of the same size: such edges can go back and forth for ever
(`blobs_grow_iff`).
-/

namespace Modelnet.Tools

variable {D : Type}

/-- The variables of `while (changed)`. -/
structure BlobState where
  assigns : ℕ → ℤ
  blobs : ℤ → ℚ
  frontier : ℕ → Bool
  nextFrontier : ℕ → Bool
  changed : Bool
  assigned : ℕ
  pass : ℕ

section

variable (wg : WeightedGraph D) (parts : ℕ)

def targetSize : ℚ :=
  let size := wg.sumE / parts
  if size = 0 then 1 else size

/-- The choice of seeds: `random()` numbers in turn, and the edges that are left. -/
def chooseSeeds : List ℕ → List ℕ → List ℕ
  | [], _ => []
  | r :: rs, edges =>
    edges.getD (r % edges.length) 0 :: chooseSeeds rs (edges.eraseIdx (r % edges.length))

def seedPart (s : BlobState) (seed : ℕ × ℕ) : BlobState :=
  let (e, part) := seed
  { s with
    assigns := Function.update s.assigns e part
    frontier := Function.update s.frontier e true
    blobs := Function.update s.blobs part (s.blobs part + wg.eweights e) }

def BlobState.init (seeds : List ℕ) : BlobState :=
  seeds.zipIdx.foldl (seedPart wg)
    { assigns := fun _ => -1
      blobs := fun _ => 0
      frontier := fun _ => false
      nextFrontier := fun _ => false
      changed := true
      assigned := 0
      pass := 0 }

/-- The edge `e1` of the part `a` goes to another part: it has none, or `a` is too large. -/
def Takes (s : BlobState) (part a : ℤ) (e1 : ℕ) : Prop :=
  a = -1 ∨ targetSize wg parts < s.blobs a ∧
    (s.blobs part + wg.eweights e1 ≤ targetSize wg parts ∨
      s.blobs part + wg.eweights e1 ≤ s.blobs a - wg.eweights e1)

instance (s : BlobState) (part a : ℤ) (e1 : ℕ) : Decidable (Takes wg parts s part a e1) := by
  unfold Takes
  infer_instance

/-- The edge `e1` goes to a part. -/
def BlobState.take (s : BlobState) (part : ℤ) (e1 : ℕ) : BlobState :=
  let a := s.assigns e1
  let blobs := if a = -1 then s.blobs
    else Function.update s.blobs a (s.blobs a - wg.eweights e1)
  { s with
    assigned := if a = -1 then s.assigned + 1 else s.assigned
    blobs := Function.update blobs part (blobs part + wg.eweights e1)
    assigns := Function.update s.assigns e1 part
    nextFrontier := Function.update s.nextFrontier e1 true
    changed := true }

/-- The body of the loop over the neighbours; the flag is `hasForeignNeighbor`. -/
def lookAt (part : ℤ) (r : BlobState × Bool) (e1 : ℕ) : BlobState × Bool :=
  let a := r.1.assigns e1
  if a = part then r
  else if Takes wg parts r.1 part a e1 then (r.1.take wg part e1, r.2)
  else if r.1.blobs part < targetSize wg parts then (r.1, true)
  else r

/-- The body of the loop over the ends of an edge. -/
def lookAround (e : ℕ) (part : ℤ) (s : BlobState) (v : ℕ) : BlobState :=
  let r := (wg.g.outEdges v).foldl (lookAt wg parts part) (s, false)
  if r.2 then { r.1 with nextFrontier := Function.update r.1.nextFrontier e true } else r.1

/-- The body of `forall(e,frontier)`. -/
def growFrom (s : BlobState) (e : ℕ) : BlobState :=
  let part := s.assigns e
  lookAround wg parts e part (lookAround wg parts e part s (wg.g.source e)) (wg.g.target e)

/-- The frontier, which is a set in the order of the edges. -/
def BlobState.front (s : BlobState) : List ℕ := (List.range wg.g.myEdges.length).filter s.frontier

/-- The variables before the loop over the frontier. -/
def BlobState.clear (s : BlobState) : BlobState :=
  { s with pass := s.pass + 1, changed := false, nextFrontier := fun _ => false }

/-- A pass of `while (changed)`, up to `break`. -/
def growBlobs (s : BlobState) : BlobState :=
  let s' := (s.front wg).foldl (growFrom wg parts) s.clear
  { s' with frontier := s'.nextFrontier }

/-- `maxp-minp`. -/
def spread (s : BlobState) : ℚ :=
  (List.range parts).foldl (fun m part => max m (s.blobs part)) (s.blobs 0) -
    (List.range parts).foldl (fun m part => min m (s.blobs part)) (s.blobs 0)

/-- `while (changed)`; after a pass comes the test for `break`, which reads `blobs[0]`. -/
def blobTurn (s : BlobState) : Loop.Turn BlobState :=
  if s.pass ≠ 0 ∧ parts = 0 then .fault
  else if s.changed = false ∨ s.pass ≠ 0 ∧ s.assigned = wg.g.myEdges.length ∧
      spread parts s / targetSize wg parts < 0.03 * targetSize wg parts then .finished
  else .next (growBlobs wg parts s)

/-! ## What is claimed -/

/-- The edge is looked at from another one. -/
def Near (e e1 : ℕ) : Prop :=
  e1 ∈ wg.g.outEdges (wg.g.source e) ∨ e1 ∈ wg.g.outEdges (wg.g.target e)

/-- The loop ends, and all edges that the seeds are connected to have a part. -/
def BlobsGrow (seeds : List ℕ) : Prop :=
  ∃ n s, Loop.run (blobTurn wg parts) n (.init wg seeds) = .finished s ∧
    ∀ seed ∈ seeds, ∀ e, Relation.ReflTransGen (Near wg) seed e →
      0 ≤ s.assigns e ∧ s.assigns e < parts

/-! ## Ties -/

/-- An edge without weight would go from a part that is too large to another one of its size. -/
def Tie (part : ℤ) (r : BlobState × Bool) (e1 : ℕ) : Prop :=
  r.1.assigns e1 ≠ part ∧ r.1.assigns e1 ≠ -1 ∧ wg.eweights e1 = 0 ∧
    targetSize wg parts < r.1.blobs (r.1.assigns e1) ∧
    r.1.blobs part = r.1.blobs (r.1.assigns e1)

/-- No tie comes up at an end of an edge. -/
def QuietEnd (part : ℤ) (s : BlobState) (v : ℕ) : Prop :=
  Fold.Guarded (lookAt wg parts part) (fun r e1 => ¬Tie wg parts part r e1) (s, false)
    (wg.g.outEdges v)

/-- No tie comes up at an edge of the frontier. -/
def QuietFrom (s : BlobState) (e : ℕ) : Prop :=
  QuietEnd wg parts (s.assigns e) s (wg.g.source e) ∧
    QuietEnd wg parts (s.assigns e) (lookAround wg parts e (s.assigns e) s (wg.g.source e))
      (wg.g.target e)

/-- No tie comes up in a pass. -/
def Quiet (s : BlobState) : Prop :=
  Fold.Guarded (growFrom wg parts) (QuietFrom wg parts) s.clear (s.front wg)

end

/-! ## Parts as bins -/

def binOf (parts : ℕ) (a : ℤ) : Option (Fin parts) :=
  if h : 0 ≤ a ∧ a < parts then some ⟨a.toNat, by omega⟩ else none

section

variable {parts : ℕ} {a : ℤ} {p : Fin parts}

theorem binOf_eq_some : binOf parts a = some p ↔ a = (p : ℕ) := by
  rw [binOf]
  split_ifs with h
  · rw [Option.some.injEq, Fin.ext_iff]
    simp only
    omega
  · have := p.isLt
    simp only [false_iff]
    omega

theorem binOf_coe (p : Fin parts) : binOf parts ((p : ℕ) : ℤ) = some p := binOf_eq_some.mpr rfl

theorem binOf_of_lt (h : 0 ≤ a ∧ a < parts) : ∃ p : Fin parts, a = (p : ℕ) :=
  ⟨⟨a.toNat, by omega⟩, by simp only; omega⟩

end

section

variable (wg : WeightedGraph D) (parts : ℕ)

/-- The edges in the bins of their parts. -/
def BlobState.bins (s : BlobState) (e : Fin wg.g.myEdges.length) : Option (Fin parts) :=
  binOf parts (s.assigns e)

def weights (e : Fin wg.g.myEdges.length) : ℚ := wg.eweights e

/-- Edges have parts, `blobs` holds the sizes of the parts, and what is in the next frontier has a
part. -/
structure BlobState.Ok (s : BlobState) : Prop where
  range : ∀ e, s.assigns e = -1 ∨
    e < wg.g.myEdges.length ∧ 0 ≤ s.assigns e ∧ s.assigns e < parts
  sizes : ∀ p : Fin parts, s.blobs (p : ℕ) = Bins.size (weights wg) (s.bins wg parts) p
  next : ∀ e, s.nextFrontier e = true → s.assigns e ≠ -1

/-- What a pass has done between two states. -/
structure BlobState.Advances (s s' : BlobState) : Prop where
  mono : ∀ e, s.assigns e ≠ -1 → s'.assigns e ≠ -1
  fresh : ∀ e, s.assigns e = -1 → s'.assigns e ≠ -1 → s'.nextFrontier e = true
  next_mono : ∀ e, s.nextFrontier e = true → s'.nextFrontier e = true
  same : s'.changed = false → s'.assigns = s.assigns ∧ s.changed = false
  count : s'.assigned + Bins.outside (s'.bins wg parts) =
    s.assigned + Bins.outside (s.bins wg parts)

/-- The parts come closer to an end, or nothing has changed. -/
def BlobState.Settles (s s' : BlobState) : Prop :=
  s'.changed = s.changed ∧ s'.assigns = s.assigns ∨
    s'.changed = true ∧
      Bins.key (weights wg) (s'.bins wg parts) < Bins.key (weights wg) (s.bins wg parts)

end

section

variable {wg : WeightedGraph D} {parts : ℕ} {s s' s'' : BlobState} {part : ℤ} {e e1 : ℕ}

theorem BlobState.Ok.lt (h : s.Ok wg parts) (he : s.assigns e ≠ -1) :
    e < wg.g.myEdges.length ∧ 0 ≤ s.assigns e ∧ s.assigns e < parts :=
  (h.range e).resolve_left he

theorem BlobState.Advances.refl (s : BlobState) : s.Advances wg parts s :=
  ⟨fun _ h => h, fun _ h h' => absurd h h', fun _ h => h, fun h => ⟨rfl, h⟩, rfl⟩

theorem BlobState.Advances.trans (h : s.Advances wg parts s') (h' : s'.Advances wg parts s'') :
    s.Advances wg parts s'' where
  mono e he := h'.mono e (h.mono e he)
  fresh e he he'' := by
    by_cases he' : s'.assigns e = -1
    · exact h'.fresh e he' he''
    · exact h'.next_mono e (h.fresh e he he')
  next_mono e he := h'.next_mono e (h.next_mono e he)
  same h₀ := by
    obtain ⟨ha', hc'⟩ := h'.same h₀
    obtain ⟨ha, hc⟩ := h.same hc'
    exact ⟨ha'.trans ha, hc⟩
  count := h'.count.trans h.count

theorem BlobState.Settles.trans (h : s.Settles wg parts s') (h' : s'.Settles wg parts s'') :
    s.Settles wg parts s'' := by
  have hbins : ∀ {t t' : BlobState}, t'.assigns = t.assigns →
      t'.bins wg parts = t.bins wg parts := by
    intro t t' heq
    funext e
    rw [bins, bins, heq]
  rcases h with ⟨hc, ha⟩ | ⟨hc, hlt⟩ <;> rcases h' with ⟨hc', ha'⟩ | ⟨hc', hlt'⟩
  · exact Or.inl ⟨hc'.trans hc, ha'.trans ha⟩
  · exact Or.inr ⟨hc', hbins ha ▸ hlt'⟩
  · exact Or.inr ⟨hc'.trans hc, (hbins ha').symm ▸ hlt⟩
  · exact Or.inr ⟨hc', hlt'.trans hlt⟩

/-! ### An edge is taken -/

theorem BlobState.bins_take (he1 : e1 < wg.g.myEdges.length) (p : Fin parts) :
    (s.take wg (p : ℕ) e1).bins wg parts =
      Function.update (s.bins wg parts) ⟨e1, he1⟩ (some p) := by
  funext e
  by_cases he : e = ⟨e1, he1⟩
  · subst he
    simp [bins, take, binOf_coe]
  · have hne : (e : ℕ) ≠ e1 := fun h => he (Fin.ext h)
    simp [bins, take, he, hne]

theorem BlobState.Ok.take (h : s.Ok wg parts) (he1 : e1 < wg.g.myEdges.length) (p : Fin parts)
    (hp : s.assigns e1 ≠ (p : ℕ)) : (s.take wg (p : ℕ) e1).Ok wg parts where
  range e := by
    by_cases he : e = e1
    · subst he
      have := p.isLt
      exact Or.inr ⟨he1, by simp [BlobState.take], by simp [BlobState.take]⟩
    · simpa [BlobState.take, he] using h.range e
  sizes b := by
    have hcoe : ∀ c d : Fin parts, ((c : ℕ) : ℤ) = (d : ℕ) ↔ c = d := by
      intro c d
      rw [Fin.ext_iff]
      exact Int.ofNat_inj
    rw [bins_take he1, Bins.size_update, ← h.sizes b]
    by_cases ha : s.assigns e1 = -1
    · have hnone : s.bins wg parts ⟨e1, he1⟩ ≠ some b := by
        rw [bins, ne_eq, binOf_eq_some, ha]
        omega
      rw [if_neg hnone, sub_zero]
      by_cases hb : p = b
      · subst hb
        simp [BlobState.take, ha, weights]
      · simp [BlobState.take, ha, hb, Function.update_of_ne (mt (hcoe b p).mp (Ne.symm hb))]
    · obtain ⟨q, hq⟩ := binOf_of_lt (h.lt ha).2
      have hpq : p ≠ q := fun heq => hp (by rw [hq, heq])
      have hbin : s.bins wg parts ⟨e1, he1⟩ = some b ↔ q = b := by
        rw [bins, binOf_eq_some, hq, hcoe]
      have hblobs : (s.take wg (p : ℕ) e1).blobs = Function.update
          (Function.update s.blobs (q : ℕ) (s.blobs (q : ℕ) - wg.eweights e1)) (p : ℕ)
          (s.blobs (p : ℕ) + wg.eweights e1) := by
        rw [BlobState.take]
        simp only [if_neg ha]
        rw [hq, Function.update_of_ne (mt (hcoe p q).mp hpq)]
      simp only [hblobs, hbin]
      by_cases hb : p = b
      · subst hb
        rw [Function.update_self, if_neg (Ne.symm hpq), if_pos rfl, sub_zero, weights]
      · rw [Function.update_of_ne (mt (hcoe b p).mp (Ne.symm hb)), if_neg hb, add_zero]
        by_cases hbq : q = b
        · subst hbq
          rw [Function.update_self, if_pos rfl, weights]
        · rw [Function.update_of_ne (mt (hcoe b q).mp (Ne.symm hbq)), if_neg hbq, sub_zero]
  next e he := by
    by_cases he' : e = e1
    · subst he'
      simp [BlobState.take]
    · have he₀ : s.nextFrontier e = true := by simpa [BlobState.take, he'] using he
      simpa [BlobState.take, he'] using h.next e he₀

theorem bins_of_none (he1 : e1 < wg.g.myEdges.length) (ha : s.assigns e1 = -1) :
    s.bins wg parts ⟨e1, he1⟩ = none := by
  rw [BlobState.bins, binOf, dif_neg (by rw [ha]; omega)]

theorem BlobState.Advances.take (h : s.Ok wg parts) (he1 : e1 < wg.g.myEdges.length)
    (p : Fin parts) : s.Advances wg parts (s.take wg (p : ℕ) e1) where
  mono e he := by
    by_cases he' : e = e1
    · simp [BlobState.take, he']
    · simpa [BlobState.take, he'] using he
  fresh e he he₁ := by
    by_cases he' : e = e1
    · simp [BlobState.take, he']
    · exact absurd he (by simpa [BlobState.take, he'] using he₁)
  next_mono e he := by
    by_cases he' : e = e1
    · simp [BlobState.take, he']
    · simpa [BlobState.take, he'] using he
  same hc := by simp [BlobState.take] at hc
  count := by
    rw [bins_take he1]
    by_cases ha : s.assigns e1 = -1
    · have hout := Bins.outside_update_of_none (p := p) (bins_of_none he1 ha)
      simp only [BlobState.take, if_pos ha]
      omega
    · obtain ⟨q, hq⟩ := binOf_of_lt (h.lt ha).2
      have hbin : s.bins wg parts ⟨e1, he1⟩ = some q := binOf_eq_some.mpr hq
      rw [Bins.outside_update_of_some hbin]
      simp only [BlobState.take, if_neg ha]

/-- An edge that is taken without a tie brings the parts closer to an end. -/
theorem BlobState.Settles.take (h : s.Ok wg parts) (he1 : e1 < wg.g.myEdges.length) {flag : Bool}
    (p : Fin parts) (hp : s.assigns e1 ≠ (p : ℕ))
    (htakes : Takes wg parts s (p : ℕ) (s.assigns e1) e1)
    (htie : ¬Tie wg parts (p : ℕ) (s, flag) e1) : s.Settles wg parts (s.take wg (p : ℕ) e1) := by
  refine Or.inr ⟨rfl, ?_⟩
  rw [bins_take he1]
  by_cases ha : s.assigns e1 = -1
  · exact Bins.key_enter (bins_of_none he1 ha)
  · obtain ⟨q, hq⟩ := binOf_of_lt (h.lt ha).2
    have hw := wg.eweights_nonneg e1
    obtain ⟨hlarge, hroom⟩ := htakes.resolve_left ha
    refine Bins.key_move (binOf_eq_some.mpr hq) hw ?_
    rw [← h.sizes p, ← h.sizes q, ← hq, weights]
    rcases hroom with hle | hle
    · linarith
    · rcases hw.lt_or_eq with hpos | hzero
      · linarith
      · have hne : s.blobs (p : ℕ) ≠ s.blobs (s.assigns e1) := fun heq =>
          htie ⟨hp, ha, hzero.symm, hlarge, heq⟩
        have hle' : s.blobs (p : ℕ) ≤ s.blobs (s.assigns e1) := by linarith
        have := lt_of_le_of_ne hle' hne
        linarith

/-! ### The loops over neighbours -/

/-- What a step of a pass keeps and does. -/
structure BlobState.Step (wg : WeightedGraph D) (parts : ℕ) (s s' : BlobState) : Prop where
  ok : s'.Ok wg parts
  advances : s.Advances wg parts s'

theorem lookAt_step {r : BlobState × Bool} (h : r.1.Ok wg parts) (he1 : e1 < wg.g.myEdges.length)
    (p : Fin parts) : r.1.Step wg parts (lookAt wg parts (p : ℕ) r e1).1 ∧
      (lookAt wg parts (p : ℕ) r e1).1.assigns e1 ≠ -1 ∧
      (¬Tie wg parts (p : ℕ) r e1 → r.1.Settles wg parts (lookAt wg parts (p : ℕ) r e1).1) := by
  have hself : r.1.Step wg parts r.1 := ⟨h, .refl r.1⟩
  have hsettled : r.1.Settles wg parts r.1 := Or.inl ⟨rfl, rfl⟩
  unfold lookAt
  dsimp only
  split_ifs with hpart htakes hforeign
  · exact ⟨hself, by rw [hpart]; omega, fun _ => hsettled⟩
  · exact ⟨⟨h.take he1 p hpart, .take h he1 p⟩, by simp [BlobState.take],
      fun htie => .take h he1 p hpart htakes htie⟩
  · exact ⟨hself, fun ha => htakes (Or.inl ha), fun _ => hsettled⟩
  · exact ⟨hself, fun ha => htakes (Or.inl ha), fun _ => hsettled⟩

theorem BlobState.Step.trans (h : s.Step wg parts s') (h' : s'.Step wg parts s'') :
    s.Step wg parts s'' := ⟨h'.ok, h.advances.trans h'.advances⟩

theorem BlobState.Step.stay (h : s.Step wg parts s') (he : s'.assigns e ≠ -1) :
    s.Step wg parts { s' with nextFrontier := Function.update s'.nextFrontier e true } := by
  have hnext : ∀ f, s'.nextFrontier f = true →
      Function.update s'.nextFrontier e true f = true := by
    intro f hf
    by_cases hfe : f = e
    · simp [hfe]
    · simpa [hfe] using hf
  refine ⟨⟨h.ok.range, h.ok.sizes, fun f hf => ?_⟩, h.advances.mono,
    fun f hf hf' => hnext f (h.advances.fresh f hf hf'),
    fun f hf => hnext f (h.advances.next_mono f hf), h.advances.same, h.advances.count⟩
  by_cases hfe : f = e
  · exact hfe ▸ he
  · exact h.ok.next f (by simpa [hfe] using hf)

theorem lookAround_step (h : s.Ok wg parts) (p : Fin parts) (he : s.assigns e ≠ -1) (v : ℕ) :
    s.Step wg parts (lookAround wg parts e (p : ℕ) s v) ∧
      (∀ e1 ∈ wg.g.outEdges v, (lookAround wg parts e (p : ℕ) s v).assigns e1 ≠ -1) ∧
      (QuietEnd wg parts (p : ℕ) s v →
        s.Settles wg parts (lookAround wg parts e (p : ℕ) s v)) := by
  have hlt : ∀ e1 ∈ wg.g.outEdges v, e1 < wg.g.myEdges.length := fun e1 h1 => (mem_outEdges.mp h1).1
  obtain ⟨hstep, hseen⟩ := Fold.foldl_all (f := lookAt wg parts (p : ℕ))
    (I := fun r => s.Step wg parts r.1) (R := fun r e1 => r.1.assigns e1 ≠ -1)
    (l := wg.g.outEdges v) (s := (s, false))
    (fun r e1 h1 hr => by
      obtain ⟨hs, ha, -⟩ := lookAt_step hr.ok (hlt e1 h1) p
      exact ⟨hr.trans hs, ha⟩)
    (fun r e2 e1 h1 hr ha => (lookAt_step hr.ok (hlt e1 h1) p).1.advances.mono e2 ha)
    ⟨h, .refl s⟩
  have hquiet : QuietEnd wg parts (p : ℕ) s v → s.Settles wg parts
      ((wg.g.outEdges v).foldl (lookAt wg parts (p : ℕ)) (s, false)).1 := by
    intro hq
    refine (Fold.Guarded.foldl (I := fun r => s.Step wg parts r.1 ∧ s.Settles wg parts r.1)
      (fun r e1 h1 hr htie => ?_) hq ⟨⟨h, .refl s⟩, Or.inl ⟨rfl, rfl⟩⟩).2
    obtain ⟨hs, -, hsettles⟩ := lookAt_step hr.1.ok (hlt e1 h1) p
    exact ⟨hr.1.trans hs, hr.2.trans (hsettles htie)⟩
  unfold lookAround
  dsimp only
  split_ifs
  · exact ⟨hstep.stay (hstep.advances.mono e he), hseen, hquiet⟩
  · exact ⟨hstep, hseen, hquiet⟩

theorem growFrom_step (h : s.Ok wg parts) (he : s.assigns e ≠ -1) :
    s.Step wg parts (growFrom wg parts s e) ∧
      (∀ e1, Near wg e e1 → (growFrom wg parts s e).assigns e1 ≠ -1) ∧
      (QuietFrom wg parts s e → s.Settles wg parts (growFrom wg parts s e)) := by
  obtain ⟨p, hp⟩ := binOf_of_lt (h.lt he).2
  obtain ⟨hstep, hseen, hquiet⟩ := lookAround_step h p he (wg.g.source e)
  obtain ⟨hstep', hseen', hquiet'⟩ :=
    lookAround_step hstep.ok p (hstep.advances.mono e he) (wg.g.target e)
  rw [growFrom, QuietFrom, hp]
  refine ⟨hstep.trans hstep', fun e1 hnear => ?_, fun hq => (hquiet hq.1).trans (hquiet' hq.2)⟩
  rcases hnear with h1 | h1
  · exact hstep'.advances.mono e1 (hseen e1 h1)
  · exact hseen' e1 h1

/-! ## A pass -/

/-- What holds between two passes. -/
structure BlobState.Between (wg : WeightedGraph D) (parts : ℕ) (s : BlobState) : Prop where
  ok : s.Ok wg parts
  frontier : ∀ e, s.frontier e = true → s.assigns e ≠ -1
  closed : ∀ e, s.assigns e ≠ -1 → s.frontier e = false → ∀ e1, Near wg e e1 → s.assigns e1 ≠ -1
  done : s.changed = false → ∀ e, s.assigns e ≠ -1 → ∀ e1, Near wg e e1 → s.assigns e1 ≠ -1
  count : s.assigned + Bins.outside (s.bins wg parts) + parts = wg.g.myEdges.length

theorem growBlobs_step (h : s.Between wg parts) :
    (growBlobs wg parts s).Between wg parts ∧
      (∀ e, s.assigns e ≠ -1 → (growBlobs wg parts s).assigns e ≠ -1) ∧
      (Quiet wg parts s → s.clear.Settles wg parts (growBlobs wg parts s)) := by
  have hclear : s.clear.Step wg parts s.clear :=
    ⟨⟨h.ok.range, h.ok.sizes, fun e he => by simp [BlobState.clear] at he⟩, .refl _⟩
  have hfront : ∀ e ∈ s.front wg, s.clear.assigns e ≠ -1 := fun e he =>
    h.frontier e (List.mem_filter.mp he).2
  obtain ⟨hstep, hseen⟩ := Fold.foldl_all (f := growFrom wg parts)
    (I := fun t => s.clear.Step wg parts t)
    (R := fun t e => ∀ e1, Near wg e e1 → t.assigns e1 ≠ -1) (l := s.front wg) (s := s.clear)
    (fun t e he ht => by
      obtain ⟨hs, hnear, -⟩ := growFrom_step ht.ok (ht.advances.mono e (hfront e he))
      exact ⟨ht.trans hs, hnear⟩)
    (fun t b e he ht hb e1 h1 =>
      (growFrom_step ht.ok (ht.advances.mono e (hfront e he))).1.advances.mono e1 (hb e1 h1))
    hclear
  have hclosed : ∀ e, s.assigns e ≠ -1 → ∀ e1, Near wg e e1 →
      (growBlobs wg parts s).assigns e1 ≠ -1 := by
    intro e he e1 hnear
    by_cases hin : s.frontier e = true
    · have hmem : e ∈ s.front wg :=
        List.mem_filter.mpr ⟨List.mem_range.mpr (h.ok.lt he).1, hin⟩
      exact hseen e hmem e1 hnear
    · exact hstep.advances.mono e1 (h.closed e he (by simpa using hin) e1 hnear)
  refine ⟨⟨⟨hstep.ok.range, hstep.ok.sizes, hstep.ok.next⟩, hstep.ok.next, ?_, ?_, ?_⟩,
    hstep.advances.mono, fun hq => ?_⟩
  · -- an edge that has just got its part is in the frontier
    intro e he hout
    by_cases hs : s.assigns e = -1
    · have hnext := hstep.advances.fresh e hs he
      exact absurd (hnext.symm.trans hout) (by simp)
    · exact hclosed e hs
  · intro hchanged e he
    have hsame : (growBlobs wg parts s).assigns = s.assigns := (hstep.advances.same hchanged).1
    exact hclosed e (hsame ▸ he)
  · have hcount := hstep.advances.count
    exact (congrArg (· + parts) hcount).trans h.count
  · refine (Fold.Guarded.foldl
      (I := fun t => s.clear.Step wg parts t ∧ s.clear.Settles wg parts t)
      (fun t e he ht hq => ?_) hq ⟨hclear, Or.inl ⟨rfl, rfl⟩⟩).2
    obtain ⟨hs, -, hsettles⟩ := growFrom_step ht.1.ok (ht.1.advances.mono e (hfront e he))
    exact ⟨ht.1.trans hs, ht.2.trans (hsettles hq)⟩

/-! ## The loop -/

variable (wg parts) in
/-- What the loop still can do: changes, and one more pass. -/
noncomputable def blobVariant (s : BlobState) : ℕ :=
  2 * Bins.rank (weights wg) (s.bins wg parts) + if s.changed then 1 else 0

theorem blobVariant_lt (h : s.Between wg parts) (hchanged : s.changed = true)
    (hq : Quiet wg parts s) :
    blobVariant wg parts (growBlobs wg parts s) < blobVariant wg parts s := by
  obtain ⟨-, -, hsettles⟩ := growBlobs_step h
  rcases hsettles hq with ⟨hc, ha⟩ | ⟨hc, hlt⟩
  · have hbins : (growBlobs wg parts s).bins wg parts = s.bins wg parts := by
      funext e
      rw [BlobState.bins, ha]
      rfl
    have hc' : (growBlobs wg parts s).changed = false := hc
    simp [blobVariant, hbins, hc', hchanged]
  · have hrank := Bins.rank_lt hlt
    have hrank' : Bins.rank (weights wg) ((growBlobs wg parts s).bins wg parts) <
        Bins.rank (weights wg) (s.bins wg parts) := hrank
    simp only [blobVariant, hc, hchanged, if_true]
    omega

theorem blobTurn_next (h : blobTurn wg parts s = .next s') :
    s.changed = true ∧ s' = growBlobs wg parts s := by
  unfold blobTurn at h
  split_ifs at h with hfault hdone
  refine ⟨by simpa using (not_or.mp hdone).1, ?_⟩
  injection h with h
  exact h.symm

theorem blobTurn_ne_fault (hparts : 0 < parts) (s : BlobState) : blobTurn wg parts s ≠ .fault := by
  unfold blobTurn
  rw [if_neg fun h => hparts.ne' h.2]
  split_ifs
  · rintro ⟨⟩
  · rintro ⟨⟩

/-! ### The seeds -/

theorem chooseSeeds_spec {rs edges : List ℕ} (hle : rs.length ≤ edges.length)
    (hnodup : edges.Nodup) : (chooseSeeds rs edges).Nodup ∧
      (chooseSeeds rs edges).length = rs.length ∧ ∀ e ∈ chooseSeeds rs edges, e ∈ edges := by
  induction rs generalizing edges with
  | nil => simp [chooseSeeds]
  | cons r rs ih =>
    rw [List.length_cons] at hle
    have hlt : r % edges.length < edges.length := Nat.mod_lt _ (by omega)
    have hperm := List.getElem_cons_eraseIdx_perm hlt
    have hcons := hperm.nodup_iff.mpr hnodup
    obtain ⟨hnot, hrest⟩ := List.nodup_cons.mp hcons
    obtain ⟨ihnodup, ihlength, ihmem⟩ :=
      ih (by rw [List.length_eraseIdx_of_lt hlt]; omega) hrest
    rw [chooseSeeds, List.getD_eq_getElem?_getD, List.getElem?_eq_getElem hlt, Option.getD_some]
    refine ⟨List.nodup_cons.mpr ⟨fun hmem => hnot (ihmem _ hmem), ihnodup⟩, by simp [ihlength], ?_⟩
    intro e he
    rcases List.mem_cons.mp he with rfl | he
    · exact List.getElem_mem hlt
    · exact List.mem_of_mem_eraseIdx (ihmem e he)

/-- What holds while the parts get their seeds. -/
structure Seeded (wg : WeightedGraph D) (parts : ℕ) (seeds : List ℕ) (s : BlobState) : Prop where
  ok : s.Ok wg parts
  assigns : ∀ e, s.assigns e ≠ -1 ↔ e ∈ seeds
  frontier : ∀ e, s.frontier e = true ↔ e ∈ seeds
  outside : Bins.outside (s.bins wg parts) + seeds.length = wg.g.myEdges.length
  nextFrontier : s.nextFrontier = fun _ => false
  changed : s.changed = true
  assigned : s.assigned = 0

theorem init_seeded {seeds : List ℕ} (hnodup : seeds.Nodup)
    (hlt : ∀ e ∈ seeds, e < wg.g.myEdges.length) (hparts : seeds.length ≤ parts) :
    Seeded wg parts seeds (.init wg seeds) := by
  induction seeds using List.reverseRecOn with
  | nil =>
    have hbins : ∀ e, (BlobState.init wg []).bins wg parts e = none := fun e =>
      bins_of_none e.isLt rfl
    refine ⟨⟨fun e => Or.inl rfl, fun p => ?_, by simp [BlobState.init]⟩, by simp [BlobState.init],
      by simp [BlobState.init], ?_, rfl, rfl, rfl⟩
    · have hzero : (BlobState.init wg []).blobs (p : ℕ) = 0 := rfl
      simp [hzero, Bins.size, hbins]
    · simp [Bins.outside, hbins]
  | append_singleton seeds e ih =>
    rw [List.length_append, List.length_singleton] at hparts
    have he : e < wg.g.myEdges.length := hlt e (by simp)
    have hseeds : seeds.Nodup ∧ e ∉ seeds := by
      obtain ⟨hn, -, hne⟩ := List.nodup_append.mp hnodup
      exact ⟨hn, fun hmem => hne e hmem e (by simp) rfl⟩
    have h := ih hseeds.1 (fun f hf => hlt f (by simp [hf])) (by omega)
    have hnone : (BlobState.init wg seeds).assigns e = -1 := by
      by_contra hne
      exact hseeds.2 ((h.assigns e).mp hne)
    have hinit : BlobState.init wg (seeds ++ [e]) =
        seedPart wg (.init wg seeds) (e, seeds.length) := by
      rw [BlobState.init, List.zipIdx_append, List.foldl_append]
      simp [BlobState.init]
    -- the part gets its seed as it would take an edge
    have hk : seeds.length < parts := by omega
    have hassigns : (seedPart wg (.init wg seeds) (e, seeds.length)).assigns =
        ((BlobState.init wg seeds).take wg seeds.length e).assigns := rfl
    have hblobs : (seedPart wg (.init wg seeds) (e, seeds.length)).blobs =
        ((BlobState.init wg seeds).take wg seeds.length e).blobs := by
      simp [seedPart, BlobState.take, hnone]
    have hok := h.ok.take he ⟨seeds.length, hk⟩ (by rw [hnone]; simp only; omega)
    have hcount : ((BlobState.init wg seeds).take wg seeds.length e).assigned +
        Bins.outside (((BlobState.init wg seeds).take wg seeds.length e).bins wg parts) =
          (BlobState.init wg seeds).assigned +
            Bins.outside ((BlobState.init wg seeds).bins wg parts) :=
      (BlobState.Advances.take h.ok he ⟨seeds.length, hk⟩).count
    rw [hinit]
    refine ⟨⟨fun f => ?_, fun p => ?_, fun f hf => ?_⟩, fun f => ?_, fun f => ?_, ?_,
      h.nextFrontier, h.changed, h.assigned⟩
    · rw [hassigns]
      exact hok.range f
    · rw [hblobs]
      exact hok.sizes p
    · exact absurd hf (by simp [seedPart, h.nextFrontier])
    · by_cases hfe : f = e
      · subst hfe
        simp only [seedPart, Function.update_self, List.mem_append, List.mem_singleton, or_true,
          iff_true]
        omega
      · simpa [seedPart, hfe] using h.assigns f
    · by_cases hfe : f = e
      · simp [seedPart, hfe]
      · simpa [seedPart, hfe] using h.frontier f
    · have hassigned : ((BlobState.init wg seeds).take wg seeds.length e).assigned =
          (BlobState.init wg seeds).assigned + 1 := by
        simp [BlobState.take, hnone]
      have hout := h.outside
      rw [List.length_append, List.length_singleton]
      have hbins : (seedPart wg (.init wg seeds) (e, seeds.length)).bins wg parts =
          ((BlobState.init wg seeds).take wg seeds.length e).bins wg parts := rfl
      rw [hbins]
      omega

theorem init_between {rs : List ℕ} (hrs : rs.length = parts)
    (hparts : parts ≤ wg.g.myEdges.length) :
    (BlobState.init wg (chooseSeeds rs (List.range wg.g.myEdges.length))).Between wg parts ∧
      ∀ e ∈ chooseSeeds rs (List.range wg.g.myEdges.length),
        (BlobState.init wg (chooseSeeds rs (List.range wg.g.myEdges.length))).assigns e ≠ -1 := by
  have hle : rs.length ≤ (List.range wg.g.myEdges.length).length := by
    rw [List.length_range]
    omega
  obtain ⟨hnodup, hlength, hmem⟩ := chooseSeeds_spec hle List.nodup_range
  have h : Seeded wg parts _ _ :=
    init_seeded hnodup (fun e he => List.mem_range.mp (hmem e he)) (by omega)
  refine ⟨⟨h.ok, fun e he => ?_, fun e he hout => ?_, fun hc => ?_, ?_⟩,
    fun e he => (h.assigns e).mpr he⟩
  · exact (h.assigns e).mpr ((h.frontier e).mp he)
  · rw [(h.frontier e).mpr ((h.assigns e).mp he)] at hout
    contradiction
  · rw [h.changed] at hc
    contradiction
  · have := h.outside
    rw [h.assigned]
    omega

/-- Between two passes the test for `break` fails: the seeds are not counted. -/
theorem BlobState.Between.assigned_ne (h : s.Between wg parts) (hparts : 0 < parts) :
    s.assigned ≠ wg.g.myEdges.length := by
  have := h.count
  omega

theorem between_of_visits (h : s.Between wg parts)
    (hvisits : Loop.Visits (blobTurn wg parts) s s') :
    s'.Between wg parts ∧ ∀ e, s.assigns e ≠ -1 → s'.assigns e ≠ -1 := by
  refine Loop.Visits.inv
    (I := fun t => t.Between wg parts ∧ ∀ e, s.assigns e ≠ -1 → t.assigns e ≠ -1)
    (fun t t' ht hturn => ?_) ⟨h, fun _ he => he⟩ hvisits
  obtain ⟨-, rfl⟩ := blobTurn_next hturn
  obtain ⟨hbetween, hmono, -⟩ := growBlobs_step ht.1
  exact ⟨hbetween, fun e he => hmono e (ht.2 e he)⟩

/-- In the end all that is near an edge with a part has a part. -/
theorem near_of_finished (h : s.Between wg parts) (hparts : 0 < parts)
    (hturn : blobTurn wg parts s = .finished) {e : ℕ} (he : s.assigns e ≠ -1) {e1 : ℕ}
    (hpath : Relation.ReflTransGen (Near wg) e e1) : s.assigns e1 ≠ -1 := by
  have hchanged : s.changed = false := by
    unfold blobTurn at hturn
    split_ifs at hturn with hfault hdone
    exact hdone.resolve_right fun hbreak => h.assigned_ne hparts hbreak.2.1
  induction hpath with
  | refl => exact he
  | tail _ hnear ih => exact h.done hchanged _ ih _ hnear

/-- Without parts there is no size to compare after the first pass. -/
theorem pos_of_run_finished {rs : List ℕ} (hrs : rs.length = parts) {n : ℕ}
    (hrun : Loop.run (blobTurn wg parts) n
      (.init wg (chooseSeeds rs (List.range wg.g.myEdges.length))) = .finished s) :
    0 < parts := by
  by_contra hzero
  obtain rfl : parts = 0 := by omega
  obtain rfl : rs = [] := List.eq_nil_of_length_eq_zero hrs
  have hfront : (BlobState.init wg []).front wg = [] := by
    simp [BlobState.front, BlobState.init]
  have hfault : blobTurn wg 0 (growBlobs wg 0 (.init wg [])) = .fault := by
    simp [blobTurn, growBlobs, hfront, BlobState.clear]
  rw [chooseSeeds] at hrun
  obtain ⟨hover, -⟩ | ⟨m, s₁, -, hnext, hrest⟩ := Loop.cases_of_run_finished hrun
  · simp [blobTurn, BlobState.init] at hover
  · obtain ⟨-, rfl⟩ := blobTurn_next hnext
    obtain ⟨hover, -⟩ | ⟨m', s₂, -, hnext', -⟩ := Loop.cases_of_run_finished hrest
    · rw [hfault] at hover
      cases hover
    · rw [hfault] at hnext'
      cases hnext'

/-- **The loop ends**, and the parts have grown as far as they can, if and only if ties do not come
up for ever. -/
theorem blobs_grow_iff {rs : List ℕ} (hrs : rs.length = parts)
    (hparts : parts ≤ wg.g.myEdges.length) :
    BlobsGrow wg parts (chooseSeeds rs (List.range wg.g.myEdges.length)) ↔
      0 < parts ∧ ∃ s₁, Loop.Visits (blobTurn wg parts)
        (.init wg (chooseSeeds rs (List.range wg.g.myEdges.length))) s₁ ∧
        ∀ s s', Loop.Visits (blobTurn wg parts) s₁ s → blobTurn wg parts s = .next s' →
          Quiet wg parts s := by
  obtain ⟨hbetween, hseeds⟩ : (BlobState.init wg _).Between wg parts ∧ _ :=
    init_between hrs hparts
  constructor
  · rintro ⟨n, s, hrun, -⟩
    refine ⟨pos_of_run_finished hrs hrun, s, Loop.visits_of_run_finished hrun, ?_⟩
    intro t t' hvisits hturn
    have hover := Loop.turn_of_run_finished hrun
    rw [hvisits.eq_of_finished hover, hover] at hturn
    cases hturn
  · rintro ⟨hpos, s₁, hvisits, hquiet⟩
    have hs₁ := between_of_visits hbetween hvisits
    have hvariant : Loop.Variant (blobTurn wg parts)
        (fun t => Loop.Visits (blobTurn wg parts) s₁ t ∧ t.Between wg parts)
        (blobVariant wg parts) := by
      constructor
      · intro t ht hturn
        have hchanged : t.changed = true := by
          by_contra hc
          exact hturn (by simp [blobTurn, hpos.ne', hc])
        simp [blobVariant, hchanged]
      · intro t t' ht hturn
        obtain ⟨hchanged, rfl⟩ := blobTurn_next hturn
        exact ⟨⟨ht.1.tail hturn, (growBlobs_step ht.2).1⟩,
          blobVariant_lt ht.2 hchanged (hquiet t _ ht.1 hturn)⟩
    obtain ⟨s, hrun, hs, hover⟩ := hvariant.exists_finished (n := blobVariant wg parts s₁)
      (fun t _ => blobTurn_ne_fault hpos t) ⟨.refl, hs₁.1⟩ le_rfl
    obtain ⟨m, hm⟩ := hvisits.exists_run_finished hrun
    have hmono := (between_of_visits hs₁.1 hs.1).2
    refine ⟨m, s, hm, fun seed hseed e hpath => ?_⟩
    have hassigned := hmono seed (hs₁.2 seed (hseeds seed hseed))
    exact (hs.2.ok.lt (near_of_finished hs.2 hpos hover hassigned hpath)).2

end

/-- Where all edges have weight, there are no ties. -/
theorem quiet_of_pos {wg : WeightedGraph D} (hpos : ∀ e, 0 < wg.eweights e) (parts : ℕ)
    (s : BlobState) : Quiet wg parts s := by
  have hend : ∀ part t v, QuietEnd wg parts part t v := fun part t v =>
    Fold.guarded_of_forall (fun r e1 htie => (hpos e1).ne' htie.2.2.1) _ _
  exact Fold.guarded_of_forall (fun t e => ⟨hend _ _ _, hend _ _ _⟩) _ _

theorem loopedPipes_blobs : BlobsGrow loopedPipes 2 (chooseSeeds [5, 7] (List.range 2)) := by
  have hpos : ∀ e, 0 < loopedPipes.eweights e := by
    intro e
    simp only [loopedPipes]
    split_ifs <;> norm_num
  have hparts : 2 ≤ loopedPipes.g.myEdges.length := le_rfl
  have hseeds : [5, 7].length = 2 := rfl
  exact (blobs_grow_iff hseeds hparts).mpr
    ⟨by decide, _, .refl, fun s _ _ _ => quiet_of_pos hpos 2 s⟩

/-! ## Edges that go back and forth -/

/-- Two pipes with weight, and four without that lead around. -/
def restlessPipes : WeightedGraph Unit :=
  { loopedPipes with
    g :=
      { (∅ : GraphData Unit) with
        myVertices := [∅, ∅, ∅, ∅, ∅]
        myEdges := [⟨2, 4, ∅⟩, ⟨1, 3, ∅⟩, ⟨3, 3, ∅⟩, ⟨4, 2, ∅⟩, ⟨1, 4, ∅⟩, ⟨2, 1, ∅⟩]
        built := ⟨by simp, by simp, by decide, by decide⟩ }
    flowMap := fun _ _ => none
    eweights := fun e => if e < 2 then 3 else 0
    vweights := fun _ => 1
    eweights_nonneg := fun e => by split_ifs <;> norm_num
    vweights_nonneg := fun v => by norm_num }

/-- Two large parts, and who has the edges 3, 4 and 5. -/
structure Restless (a b : ℤ) (front : List ℕ) (s : BlobState) : Prop where
  front : s.front restlessPipes = front
  assigns0 : s.assigns 0 = 1
  assigns1 : s.assigns 1 = 2
  assigns2 : s.assigns 2 = 0
  assigns3 : s.assigns 3 = a
  assigns4 : s.assigns 4 = b
  assigns5 : s.assigns 5 = b
  blobs0 : s.blobs 0 = 0
  blobs1 : s.blobs 1 = 3
  blobs2 : s.blobs 2 = 3
  changed : s.changed = true
  assigned : s.assigned = 3

theorem targetSize_restless : targetSize restlessPipes 3 = 2 := by
  have hsum : restlessPipes.sumE = 6 := by decide +kernel
  rw [targetSize, hsum]
  norm_num

theorem front_restless (s : BlobState) :
    s.front restlessPipes = [0, 1, 2, 3, 4, 5].filter s.frontier := rfl

theorem outEdges_restless : restlessPipes.g.outEdges 1 = [1, 4] ∧
    restlessPipes.g.outEdges 2 = [0, 5] ∧ restlessPipes.g.outEdges 3 = [2] ∧
    restlessPipes.g.outEdges 4 = [3] := by decide +kernel

theorem source_restless : restlessPipes.g.source 0 = 2 ∧ restlessPipes.g.source 1 = 1 ∧
    restlessPipes.g.source 2 = 3 ∧ restlessPipes.g.source 3 = 4 ∧ restlessPipes.g.source 4 = 1 ∧
    restlessPipes.g.source 5 = 2 := by decide +kernel

theorem target_restless : restlessPipes.g.target 0 = 4 ∧ restlessPipes.g.target 1 = 3 ∧
    restlessPipes.g.target 2 = 3 ∧ restlessPipes.g.target 3 = 2 ∧ restlessPipes.g.target 4 = 4 ∧
    restlessPipes.g.target 5 = 1 := by decide +kernel

theorem eweights_restless (e : ℕ) : restlessPipes.eweights e = if e < 2 then 3 else 0 := rfl

/-- A pass from such a state. -/
def BlobState.restless (s : BlobState) (a b : ℤ) : BlobState :=
  let front := Function.update (Function.update (Function.update (fun _ => false) 5 true) 3 true)
    4 true
  { s with
    assigns := Function.update (Function.update (Function.update s.assigns 5 a) 3 b) 4 a
    blobs := Function.update (Function.update (Function.update (Function.update s.blobs b 3) a 3)
      b 3) a 3
    frontier := front
    nextFrontier := front
    pass := s.pass + 1 }

theorem growBlobs_restless {a b : ℤ} {front : List ℕ} {s : BlobState} (h : Restless a b front s)
    (hab : a = 1 ∧ b = 2 ∧ (front = [3, 4, 5] ∨ front = [1, 3, 4, 5]) ∨
      a = 2 ∧ b = 1 ∧ front = [3, 4, 5]) : growBlobs restlessPipes 3 s = s.restless a b := by
  obtain ⟨h1, h2, h3, h4⟩ := outEdges_restless
  obtain ⟨hs, a0, a1, a2, a3, a4, a5, b0, b1, b2, hc, ha⟩ := h
  rcases hab with ⟨rfl, rfl, rfl | rfl⟩ | ⟨rfl, rfl, rfl⟩ <;>
    norm_num [growBlobs, hs, growFrom, lookAround, lookAt, BlobState.take, Takes, h1, h2, h3, h4,
      source_restless, target_restless, eweights_restless, a0, a1, a2, a3, a4, a5, b0, b1, b2,
      targetSize_restless, BlobState.clear, hc, BlobState.restless]

/-- The edges without weight change their parts in every pass. -/
theorem Restless.next {a b : ℤ} {front : List ℕ} {s : BlobState} (h : Restless a b front s)
    (hab : a = 1 ∧ b = 2 ∧ (front = [3, 4, 5] ∨ front = [1, 3, 4, 5]) ∨
      a = 2 ∧ b = 1 ∧ front = [3, 4, 5]) :
    Restless b a [3, 4, 5] (growBlobs restlessPipes 3 s) := by
  rw [growBlobs_restless h hab]
  obtain ⟨hs, a0, a1, a2, a3, a4, a5, b0, b1, b2, hc, ha⟩ := h
  constructor
  · simp [front_restless, BlobState.restless]
  all_goals
    rcases hab with ⟨rfl, rfl, -⟩ | ⟨rfl, rfl, -⟩ <;>
      simp [BlobState.restless, a0, a1, a2, b0, hc, ha]

theorem init_restless : Restless 1 2 [1, 3, 4, 5]
    (growBlobs restlessPipes 3 (.init restlessPipes (chooseSeeds [2, 0, 3] (List.range 6)))) := by
  have hseeds : chooseSeeds [2, 0, 3] (List.range 6) = [2, 0, 5] := by decide
  obtain ⟨h1, h2, h3, h4⟩ := outEdges_restless
  rw [hseeds]
  constructor <;>
    norm_num [BlobState.init, seedPart, growBlobs, front_restless, growFrom, lookAround, lookAt,
      BlobState.take, Takes, h1, h2, h3, h4, source_restless, target_restless, eweights_restless,
      targetSize_restless, BlobState.clear]

/-- The loop comes to no end. -/
theorem restlessPipes_blobs :
    ¬BlobsGrow restlessPipes 3 (chooseSeeds [2, 0, 3] (List.range 6)) := by
  rintro ⟨n, s, hrun, -⟩
  have hturn : ∀ t : BlobState, t.changed = true → t.assigned ≠ 6 →
      blobTurn restlessPipes 3 t = .next (growBlobs restlessPipes 3 t) := by
    intro t hc ha
    rw [blobTurn, if_neg (by simp), if_neg]
    rintro (hc' | ⟨-, ha', -⟩)
    · simp [hc] at hc'
    · exact ha ha'
  obtain ⟨m, hm⟩ := Loop.Visits.run_finished (.single (hturn _ rfl (by decide))) hrun
  have hnever : ∀ {a b : ℤ} {front : List ℕ}, ¬Restless a b front s := by
    intro a b front hs
    have hover := Loop.turn_of_run_finished hm
    rw [hturn s hs.changed (by rw [hs.assigned]; decide)] at hover
    cases hover
  obtain hs | hs : Restless 2 1 [3, 4, 5] s ∨
      ∃ front, (front = [3, 4, 5] ∨ front = [1, 3, 4, 5]) ∧ Restless 1 2 front s := by
    refine Loop.inv_of_run_finished (I := fun t => Restless 2 1 [3, 4, 5] t ∨
      ∃ front, (front = [3, 4, 5] ∨ front = [1, 3, 4, 5]) ∧ Restless 1 2 front t)
      (fun t t' ht hnext => ?_) (Or.inr ⟨_, Or.inr rfl, init_restless⟩) hm
    obtain ⟨-, rfl⟩ := blobTurn_next hnext
    rcases ht with ht | ⟨front, hfront, ht⟩
    · exact Or.inr ⟨_, Or.inl rfl, ht.next (Or.inr ⟨rfl, rfl, rfl⟩)⟩
    · exact Or.inl (ht.next (Or.inl ⟨rfl, rfl, hfront⟩))
  · exact hnever hs
  · obtain ⟨front, -, hs⟩ := hs
    exact hnever hs

end Modelnet.Tools
