import Modelnet.Tools.Buildflows

/-!
# Dropped packets

A record of a dropped packet has 16 bits for each of its addresses, and `MN_LOG_PACKET` stores the
high halves of the addresses there. `buildflows` takes what it finds for a number of the node table,
which has the addresses as keys, so it looks for an address below 2^16, and a node that is not found
is node 0. A drop is charged to the right route only where the route between these two nodes goes
the same way (`charges_iff`).
-/

namespace Modelnet.Tools

/-! ## The logger and the node table -/

/-- `MN_LOG_PACKET`, for the values that its arguments have. -/
def mnLogPacket (fromIp toIp : UInt32) (hop drop : ℕ) : LogRecord :=
  .packet ((fromIp &&& (0xFFFF0000 : UInt32)) >>> 16).toUInt16
    ((toIp &&& (0xFFFF0000 : UInt32)) >>> 16).toUInt16 (UInt16.ofNat hop) (UInt16.ofNat drop)

/-- How the arguments have the addresses. -/
inductive ByteOrder where
  | network
  | host
  deriving DecidableEq

def ByteOrder.sAddr : ByteOrder → UInt32 → UInt32
  | .network, ip => ip
  | .host, ip => htonl ip

/-- `ClientReader`: the numbers of the virtual nodes by their `s_addr`. -/
def readClients (nodes : List (ℤ × UInt32)) : SortedMap ℕ ℤ :=
  nodes.foldl (fun ipToVN node => ipToVN.insert node.2.toNat node.1) ∅

/-- `ipMap[ip]`. -/
def ipMapOf (nodes : List (ℤ × UInt32)) (ip : UInt32) : ℤ :=
  ((readClients nodes).find? ip.toNat).getD 0

/-! ## What is claimed -/

/-- `flows[p][q]`. -/
def FlowMap.flow (f : FlowMap) (p : ℕ) (q : ℤ) : Int64 := (f[p]?.bind (·.find? q)).getD 0

/-- Every pair of pipes after a position of the route has one less, and no other pair has. A route
that is empty is an error. -/
def Charges (route : List ℤ) (hop : ℕ) (f : FlowMap) (result : Option FlowMap) : Prop :=
  if route = [] then result = none
  else ∃ f', result = some f' ∧
    ∀ p q, f'.flow p q = f.flow p q - Int64.ofNat ((steps route (hop + 1)).count ((p : ℤ), q))

/-- The routes go over the pipes, and each of them is a vector. -/
structure RoutesFit (numPipes : ℕ) (routes : ℤ → ℤ → List ℤ) : Prop where
  overPipes : OverPipes numPipes routes
  length_lt : ∀ src dst, (routes src dst).length < 2 ^ 63

/-- The node that the high half of an address stands for in a record. -/
def recordedNode (nodes : List (ℤ × UInt32)) (ip : UInt32) : ℤ :=
  ipMapOf nodes ((ip &&& (0xFFFF0000 : UInt32)) >>> 16)

/-- A route has the same pairs of pipes after a position as another one has after another position,
and is empty if and only if that one is. -/
def SameRest (route : List ℤ) (hop : ℕ) (route' : List ℤ) (hop' : ℕ) : Prop :=
  (route = [] ↔ route' = []) ∧ (steps route (hop + 1)).Perm (steps route' (hop' + 1))

instance (route route' : List ℤ) (hop hop' : ℕ) : Decidable (SameRest route hop route' hop') :=
  inferInstanceAs (Decidable (_ ∧ _))

/-! ## What is subtracted -/

section

variable {numPipes : ℕ} {routes : ℤ → ℤ → List ℤ} {nodes : List (ℤ × UInt32)} {f f' : FlowMap}

theorem flow_addFlow {n : Int64} {e : ℤ × ℤ} (hf : f.length = numPipes + 1)
    (he : 0 ≤ e.1 ∧ e.1 ≤ numPipes) : ∃ f', addFlow n f e = some f' ∧ f'.length = numPipes + 1 ∧
      ∀ p q, f'.flow p q = if ((p : ℤ), q) = e then f.flow p q + n else f.flow p q := by
  obtain ⟨p', q'⟩ := e
  obtain ⟨p', rfl⟩ := Int.eq_ofNat_of_zero_le he.1
  have hlt : p' < f.length := by
    have hle : (p' : ℤ) ≤ numPipes := he.2
    omega
  refine ⟨f.set p' (f[p'].insert q' ((f[p'].find? q').getD 0 + n)), ?_, by rw [List.length_set, hf],
    fun p q => ?_⟩
  · rw [addFlow, if_neg (not_lt.mpr he.1), Int.toNat_natCast, List.getElem?_eq_getElem hlt]
    rfl
  · by_cases hp : p = p'
    · subst hp
      by_cases hq : q = q'
      · subst hq
        simp [FlowMap.flow, hlt]
      · simp [FlowMap.flow, hlt, hq, SortedMap.find?_insert_of_ne]
    · have hne : ((p : ℤ), q) ≠ ((p' : ℤ), q') := fun h => hp (Int.ofNat.inj (congrArg Prod.fst h))
      rw [if_neg hne, FlowMap.flow, List.getElem?_set_ne (Ne.symm hp), FlowMap.flow]

/-- What is left after some pairs have been taken back. -/
theorem flow_foldlM_addFlow {l : List (ℤ × ℤ)} (hf : f.length = numPipes + 1)
    (hl : ∀ e ∈ l, 0 ≤ e.1 ∧ e.1 ≤ numPipes) : ∃ f', l.foldlM (addFlow (-1)) f = some f' ∧
      ∀ p q, f'.flow p q = f.flow p q - Int64.ofNat (l.count ((p : ℤ), q)) := by
  induction l generalizing f with
  | nil => exact ⟨f, rfl, fun p q => by simp⟩
  | cons e l ih =>
    obtain ⟨f₁, h₁, hlen, hflow₁⟩ := flow_addFlow (n := -1) hf (hl e List.mem_cons_self)
    obtain ⟨f₂, h₂, hflow₂⟩ := ih hlen fun e' he' => hl e' (List.mem_cons_of_mem _ he')
    refine ⟨f₂, by rw [List.foldlM_cons, h₁, Option.bind_eq_bind, Option.bind_some, h₂], fun p q => ?_⟩
    rw [hflow₂, hflow₁]
    by_cases he : ((p : ℤ), q) = e
    · rw [if_pos he, he, List.count_cons_self, Int64.ofNat_add, Int64.add_comm (Int64.ofNat _),
        ← Int64.sub_sub, Int64.sub_eq_add_neg (f.flow p q)]
      rfl
    · rw [if_neg he, List.count_cons_of_ne (Ne.symm he)]

theorem steps_overPipes (hroutes : OverPipes numPipes routes) {src dst : ℤ} {i : ℕ} :
    ∀ e ∈ steps (routes src dst) i, 0 ≤ e.1 ∧ e.1 ≤ numPipes :=
  fun _ he => hroutes src dst _ (List.mem_of_mem_drop (List.of_mem_zip he).1)

theorem length_steps_le (route : List ℤ) (i : ℕ) : (steps route i).length ≤ route.length := by
  rw [steps, List.length_zip, List.length_drop, List.length_drop]
  omega

theorem toUInt32_high (ip : UInt32) : ((ip &&& (0xFFFF0000 : UInt32)) >>> 16).toUInt16.toUInt32 =
    (ip &&& (0xFFFF0000 : UInt32)) >>> 16 := by
  apply UInt32.toNat_inj.mp
  have hlt : (ip &&& (0xFFFF0000 : UInt32)).toNat < 2 ^ 32 := UInt32.toNat_lt _
  rw [UInt16.toNat_toUInt32, UInt32.toNat_toUInt16, UInt32.toNat_shiftRight]
  refine Nat.mod_eq_of_lt ?_
  rw [Nat.shiftRight_eq_div_pow]
  exact Nat.div_lt_of_lt_mul hlt

/-- **What a record of a drop takes back**: the pairs of the route between the recorded nodes. -/
theorem countRecord_mnLogPacket {src dst : UInt32} {hop drop : ℕ} (hdrop : UInt16.ofNat drop ≠ 0) :
    countRecord (ipMapOf nodes) routes f (mnLogPacket src dst hop drop) =
      if routes (recordedNode nodes src) (recordedNode nodes dst) = [] then none
      else (steps (routes (recordedNode nodes src) (recordedNode nodes dst))
        (hop % 2 ^ 16 + 1)).foldlM (addFlow (-1)) f := by
  have hhop : (UInt16.ofNat hop).toNat = hop % 2 ^ 16 := UInt16.toNat_ofNat'
  rw [mnLogPacket, countRecord, if_neg hdrop, toUInt32_high, toUInt32_high, hhop]
  rfl

theorem eq_of_ofNat_eq {a b : ℕ} (ha : a < 2 ^ 63) (hb : b < 2 ^ 63)
    (h : Int64.ofNat a = Int64.ofNat b) : a = b :=
  le_antisymm ((Int64.ofNat_le_iff_le ha hb).mp (h ▸ Int64.le_refl _))
    ((Int64.ofNat_le_iff_le hb ha).mp (h ▸ Int64.le_refl _))

theorem perm_steps_iff (hroutes : RoutesFit numPipes routes) {src dst vn1 vn2 : ℤ} {i j : ℕ}
    (hflow : ∀ p q, f'.flow p q = f.flow p q -
      Int64.ofNat ((steps (routes src dst) i).count ((p : ℤ), q))) :
    (∀ p q, f'.flow p q = f.flow p q -
        Int64.ofNat ((steps (routes vn1 vn2) j).count ((p : ℤ), q))) ↔
      (steps (routes src dst) i).Perm (steps (routes vn1 vn2) j) := by
  have hlt (src dst : ℤ) (i : ℕ) (e : ℤ × ℤ) : (steps (routes src dst) i).count e < 2 ^ 63 :=
    (List.count_le_length.trans (length_steps_le _ _)).trans_lt (hroutes.length_lt src dst)
  have hneg (src dst : ℤ) (i : ℕ) {e : ℤ × ℤ} (he : e.1 < 0) :
      (steps (routes src dst) i).count e = 0 :=
    List.count_eq_zero.mpr fun hmem =>
      absurd (steps_overPipes hroutes.overPipes e hmem).1 (not_le.mpr he)
  rw [List.perm_iff_count]
  constructor
  · rintro h ⟨p, q⟩
    rcases lt_or_ge p 0 with hp | hp
    · rw [hneg src dst i hp, hneg vn1 vn2 j hp]
    · obtain ⟨p, rfl⟩ := Int.eq_ofNat_of_zero_le hp
      have heq := (hflow p q).symm.trans (h p q)
      exact eq_of_ofNat_eq (hlt _ _ _ _) (hlt _ _ _ _) ((Int64.sub_right_inj _).mp heq)
  · intro h p q
    rw [hflow, h]

theorem charges_foldlM_iff (hroutes : RoutesFit numPipes routes) (hf : f.length = numPipes + 1)
    {src dst vn1 vn2 : ℤ} {hop i : ℕ} :
    Charges (routes vn1 vn2) hop f (if routes src dst = [] then none
      else (steps (routes src dst) (i + 1)).foldlM (addFlow (-1)) f) ↔
      SameRest (routes src dst) i (routes vn1 vn2) hop := by
  obtain ⟨f', hf', hflow⟩ := flow_foldlM_addFlow hf (l := steps (routes src dst) (i + 1))
    (steps_overPipes hroutes.overPipes)
  unfold Charges SameRest
  rw [hf', ← perm_steps_iff hroutes hflow]
  by_cases hrecorded : routes src dst = [] <;> by_cases htrue : routes vn1 vn2 = []
  · have hsame : ∀ p q, f'.flow p q = f.flow p q -
        Int64.ofNat ((steps (routes vn1 vn2) (hop + 1)).count ((p : ℤ), q)) := by
      rw [perm_steps_iff hroutes hflow, hrecorded, htrue]
      simp [steps]
    simp [hrecorded, htrue, hsame]
  · simp [hrecorded, htrue]
  · simp [hrecorded, htrue]
  · simp [hrecorded, htrue]

/-! ## The node table -/

theorem find?_foldl_insert (ipToVN : SortedMap ℕ ℤ) {ip : ℕ}
    (h : ∀ node ∈ nodes, node.2.toNat ≠ ip) :
    (nodes.foldl (fun ipToVN node => ipToVN.insert node.2.toNat node.1) ipToVN).find? ip =
      ipToVN.find? ip := by
  induction nodes generalizing ipToVN with
  | nil => rfl
  | cons node nodes ih =>
    rw [List.foldl_cons, ih _ fun n hn => h n (List.mem_cons_of_mem _ hn),
      SortedMap.find?_insert_of_ne _ _ (h node List.mem_cons_self).symm]

/-- An address that no node has is taken for that of node 0. -/
theorem ipMapOf_eq_zero {ip : UInt32} (h : ∀ node ∈ nodes, node.2 ≠ ip) : ipMapOf nodes ip = 0 := by
  rw [ipMapOf, readClients, find?_foldl_insert _ fun node hnode heq =>
    h node hnode (UInt32.toNat_inj.mp heq)]
  rfl

theorem ipMapOf_of_mem (hnodes : (nodes.map Prod.snd).Nodup) {vn : ℤ} {ip : UInt32}
    (h : (vn, ip) ∈ nodes) : ipMapOf nodes ip = vn := by
  have hfind (ipToVN : SortedMap ℕ ℤ) : (nodes.foldl (fun ipToVN node =>
      ipToVN.insert node.2.toNat node.1) ipToVN).find? ip.toNat = some vn := by
    induction nodes generalizing ipToVN with
    | nil => exact absurd h List.not_mem_nil
    | cons node nodes ih =>
      obtain ⟨hnotMem, hrest⟩ := List.nodup_cons.mp hnodes
      rcases List.mem_cons.mp h with rfl | h
      · rw [List.foldl_cons, find?_foldl_insert, SortedMap.find?_insert_self]
        intro node hnode heq
        exact hnotMem (List.mem_map.mpr ⟨node, hnode, UInt32.toNat_inj.mp heq⟩)
      · rw [List.foldl_cons, ih hrest h]
  rw [ipMapOf, readClients, hfind, Option.getD_some]

/-- Where no node has an address of 16 bits, the records are all of node 0. -/
theorem recordedNode_eq_zero (h : ∀ node ∈ nodes, 2 ^ 16 ≤ node.2.toNat) (ip : UInt32) :
    recordedNode nodes ip = 0 := by
  refine ipMapOf_eq_zero fun node hnode heq => ?_
  have hle := h node hnode
  rw [heq, ← toUInt32_high, UInt16.toNat_toUInt32] at hle
  exact absurd (UInt16.toNat_lt _) (not_lt.mpr hle)

/-! ## Right and wrong charges -/

/-- **A drop is charged to the right route** if and only if the route between the recorded nodes
goes on in the same way. -/
theorem charges_iff (hroutes : RoutesFit numPipes routes) (hnodes : (nodes.map Prod.snd).Nodup)
    (order : ByteOrder) {src dst : UInt32} {vn1 vn2 : ℤ} (hsrc : (vn1, order.sAddr src) ∈ nodes)
    (hdst : (vn2, order.sAddr dst) ∈ nodes) {hop drop : ℕ} (hdrop : UInt16.ofNat drop ≠ 0)
    {logs : List (Option (List LogRecord))}
    (hrun : buildFlows (ipMapOf nodes) routes numPipes logs = some f) :
    Charges (routes vn1 vn2) hop f
        (countRecord (ipMapOf nodes) routes f (mnLogPacket src dst hop drop)) ↔
      SameRest (routes (recordedNode nodes src) (recordedNode nodes dst)) (hop % 2 ^ 16)
        (routes (ipMapOf nodes (order.sAddr src)) (ipMapOf nodes (order.sAddr dst))) hop := by
  rw [countRecord_mnLogPacket hdrop, ipMapOf_of_mem hnodes hsrc, ipMapOf_of_mem hnodes hdst]
  exact charges_foldlM_iff hroutes (inPipes_buildFlows hroutes.overPipes hrun).length

end

def hostNodes : List (ℤ × UInt32) := [(0, 0x0100000A), (1, 0x0200000A)]

theorem recordedNode_hostNodes (ip : UInt32) : recordedNode hostNodes ip = 0 :=
  recordedNode_eq_zero (by decide) ip

/-- A route between them, and one from the first to itself. -/
def loopRoutes (src dst : ℤ) : List ℤ :=
  if src = 0 ∧ dst = 1 then [2, 3, 4] else if src = 0 ∧ dst = 0 then [5] else []

theorem routesFit_loopRoutes : RoutesFit 5 loopRoutes where
  overPipes src dst p hp := by
    unfold loopRoutes at hp
    split_ifs at hp <;> simp at hp <;> omega
  length_lt src dst := by
    unfold loopRoutes
    split_ifs <;> simp

/-- A drop at the last but one pipe takes nothing back. -/
theorem lastPipe_charged : Charges (loopRoutes 0 1) 1 (List.replicate 6 ∅)
    (countRecord (ipMapOf hostNodes) loopRoutes (List.replicate 6 ∅)
      (mnLogPacket 0x0100000A 0x0200000A 1 1)) := by
  have hrun : buildFlows (ipMapOf hostNodes) loopRoutes 5 [] = some (List.replicate 6 ∅) := rfl
  refine (charges_iff routesFit_loopRoutes (by decide) .network (by decide) (by decide) (by decide)
    hrun).mpr ?_
  rw [recordedNode_hostNodes, recordedNode_hostNodes]
  decide

/-- Only the route between the two nodes. -/
def singleRoute (src dst : ℤ) : List ℤ := if src = 0 ∧ dst = 1 then [2, 3, 4] else []

/-- The records of a drop at the first pipe, in either byte order, end the program, since there is
no route from node 0 to itself. -/
theorem firstPipe_not_charged :
    ¬Charges (singleRoute 0 1) 0 (List.replicate 5 ∅) (countRecord (ipMapOf hostNodes) singleRoute
        (List.replicate 5 ∅) (mnLogPacket 0x0100000A 0x0200000A 0 1)) ∧
      ¬Charges (singleRoute 0 1) 0 (List.replicate 5 ∅) (countRecord (ipMapOf hostNodes) singleRoute
        (List.replicate 5 ∅) (mnLogPacket 0x0A000001 0x0A000002 0 1)) := by
  have hdrop : UInt16.ofNat 1 ≠ 0 := by decide
  rw [countRecord_mnLogPacket hdrop, countRecord_mnLogPacket hdrop]
  simp [recordedNode_hostNodes, singleRoute, Charges]

end Modelnet.Tools
