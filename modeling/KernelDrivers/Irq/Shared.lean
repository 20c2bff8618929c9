import KernelDrivers.Framework.Unwinding
import KernelDrivers.Kernel.Basic

namespace KernelDrivers.Irq.Shared

open Framework Kernel Unwinding

/-- A `dev_id`: the address `&keys[i]`, or a number cast to a pointer. -/
inductive DevId where
  | key (i : Nat)
  | num (v : BitVec 32)
  deriving DecidableEq

/-- A registration of the kernel: an interrupt line and a `dev_id`. -/
abbrev Reg := Nat × DevId

/-- The array `keys`. -/
structure KeyTable where
  n : Nat
  irq : Nat → Nat
  le : n ≤ 31
  distinct : ∀ i < n, ∀ j < n, irq i = irq j → i = j

/-- How the two `request_irq` calls for every key would end. -/
structure Fates where
  first : Nat → Option Err
  second : Nat → Option Err

section

variable (devId : Nat → DevId) (keys : KeyTable) (f : Fates)

/-- The body of the `for` loop of a registration. -/
def body (i : Nat) (s : Frame Reg) : Round Reg :=
  let s := { s with ret := status (f.first i) }
  if s.ret < 0 then .error s
  else
    let s := s.acquire (keys.irq i, .key i)
    let s := { s with ret := status (f.second i) }
    if s.ret < 0 then .error (s.release (keys.irq i, .key i))
    else .next (s.acquire (keys.irq i, devId i))

/-- The two `free_irq` calls for a key. -/
def undo (i : Nat) : List Reg := [(keys.irq i, .key i), (keys.irq i, devId i)]

def request : Frame Reg :=
  match loop (body devId keys f) (undo devId keys) keys.n 0 ⟨0, Ledger.empty⟩ with
  | .error s => s
  | .next s => { s with ret := 0 }

end

namespace IrqShared

/-- In irq/irq_shared the second handler has `1 << i` for its `dev_id`. -/
def devId (i : Nat) : DevId := .num (1#32 <<< i)

def requestIrqKey (keys : KeyTable) (f : Fates) : Frame Reg := request devId keys f

/-- `for (i = 0; i < n; i++)` -/
def freeIrqKey (keys : KeyTable) (L : Ledger Reg) : Ledger Reg :=
  (List.range keys.n).foldl (fun L i => L.releaseAll (undo devId keys i)) L

end IrqShared

namespace SharedIrq

/-- In kernel_code_v1/shared_irq it has `i + 1`. -/
def devId (i : Nat) : DevId := .num (BitVec.ofNat 32 (i + 1))

def register4keys (keys : KeyTable) (f : Fates) : Frame Reg := request devId keys f

/-- `while (i--)` -/
def unregister4keys (keys : KeyTable) (L : Ledger Reg) : Ledger Reg :=
  (unwind (undo devId keys) keys.n ⟨0, L⟩).ledger

end SharedIrq

/-- The pairs of all keys. -/
def pairs (devId : Nat → DevId) (keys : KeyTable) : List Reg := held (undo devId keys) keys.n

/-- What the ledger of a registration that ends with `s`, and of the unregistration after it, must
be like. -/
structure Accounted (devId : Nat → DevId) (keys : KeyTable) (s : Frame Reg)
    (unregister : Ledger Reg → Ledger Reg) : Prop where
  ret : s.ret = 0 ∨ s.ret < 0
  success : s.ret = 0 → s.ledger.Holds (pairs devId keys)
  failure : s.ret < 0 → s.ledger.Holds []
  stray : s.ledger.stray = []
  unregistered : s.ret = 0 →
    (unregister s.ledger).Holds [] ∧ (unregister s.ledger).stray = [] ∧
      (unregister s.ledger).released.Perm (pairs devId keys)

variable {devId : Nat → DevId} (hkey : ∀ i j, devId i ≠ .key j) (keys : KeyTable) (f : Fates)

/-- Both handlers of key `i` are registered. -/
def Complete (f : Fates) (i : Nat) : Prop := f.first i = none ∧ f.second i = none

include hkey in
theorem body_spec : RoundSpec (body devId keys f) (undo devId keys) (Complete f) (fun _ => [])
    keys.n where
  nodup i _ := by
    have hne : (keys.irq i, DevId.key i) ≠ (keys.irq i, devId i) := by
      intro h
      exact hkey i i (Prod.mk.inj h).2.symm
    simpa [undo] using hne
  apart i hi j hj r hr hr' := by
    -- the keys are on distinct lines
    have hline (k : Nat) (hk : r ∈ undo devId keys k) : r.1 = keys.irq k := by
      simp only [undo, List.mem_cons, List.not_mem_nil, or_false] at hk
      rcases hk with rfl | rfl <;> rfl
    have hij := keys.distinct i hi j (by omega) ((hline i hr).symm.trans (hline j hr'))
    omega
  leaks i _ := List.nil_subset _
  round i _ s rs hs hfresh := by
    have hfirst := hs.acquire (keys.irq i, .key i)
    cases h1 : f.first i with
    | some e =>
      right
      have hb : body devId keys f i s = .error { s with ret := e.code } := by
        simp [body, h1, status, e.neg]
      refine ⟨by simp [Complete, h1], _, hb, e.neg, ?_, rfl⟩
      rw [List.append_nil]
      exact hs
    | none =>
      cases h2 : f.second i with
      | some e =>
        right
        have hb : body devId keys f i s = .error
            { (s.acquire (keys.irq i, .key i)).release (keys.irq i, .key i) with
              ret := e.code } := by
          simp [body, h1, h2, status, e.neg, Frame.acquire, Frame.release]
        obtain ⟨hh, hst⟩ := hfirst.release (hfresh _ (by simp [undo]))
        refine ⟨by simp [Complete, h2], _, hb, e.neg, ?_, hst⟩
        rw [List.append_nil]
        exact hh
      | none =>
        left
        have hb : body devId keys f i s = .next
            { (s.acquire (keys.irq i, .key i)).acquire (keys.irq i, devId i) with
              ret := 0 } := by
          simp [body, h1, h2, status, Frame.acquire]
        have hboth := hfirst.acquire (keys.irq i, devId i)
        rw [List.append_assoc] at hboth
        exact ⟨⟨h1, h2⟩, _, hb, hboth, rfl, rfl⟩

include hkey in
/-- A registration is accounted for when the unregistration frees all pairs, in any order. -/
theorem request_accounted {unregister : Ledger Reg → Ledger Reg} {ts : List Reg}
    (hun : ∀ L, unregister L = L.releaseAll ts) (hts : ts.Perm (pairs devId keys)) :
    Accounted devId keys (request devId keys f) unregister := by
  have S := body_spec hkey keys f
  have hended := S.run_ended 0
  generalize hloop : loop (body devId keys f) (undo devId keys) keys.n 0 ⟨0, Ledger.empty⟩ =
    outcome at hended
  cases hended with
  | done s all holds stray released =>
    have hreq : request devId keys f = { s with ret := 0 } := by simp [request, hloop]
    obtain ⟨hnone, hst, hrel⟩ := holds.releasePerm (S.held_nodup (Nat.le_refl _)) hts
    rw [hreq]
    refine ⟨Or.inl rfl, fun _ => holds, fun h => absurd h (Int.lt_irrefl 0), stray, ?_⟩
    intro _
    rw [hun]
    refine ⟨hnone, hst.trans stray, ?_⟩
    rw [hrel, released]
    exact hts
  | failed s k lt before fails ret holds stray =>
    have hreq : request devId keys f = s := by simp [request, hloop]
    have hne : s.ret ≠ 0 := by omega
    rw [hreq]
    exact ⟨Or.inr ret, fun h => absurd h hne, fun _ => holds, stray, fun h => absurd h hne⟩

/-- The two handlers of a key have different pairs, and no pair is that of two keys. -/
theorem pairs_distinct (hkey : ∀ i j, devId i ≠ .key j) :
    (pairs devId keys).Nodup ∧ (pairs devId keys).length = 2 * keys.n := by
  constructor
  · exact (body_spec hkey keys ⟨fun _ => none, fun _ => none⟩).held_nodup (Nat.le_refl _)
  · have hlen (k : Nat) : (held (undo devId keys) k).length = 2 * k := by
      induction k with
      | zero => rfl
      | succ k ih =>
        rw [held_succ, List.length_append, ih]
        rfl
    exact hlen keys.n

/-- Both drivers register all `2 * n` pairs or none, their unregistration removes all, and no
`free_irq` names a pair that is not registered. -/
theorem shared_irq_ledger (keys : KeyTable) (f : Fates) :
    (Accounted IrqShared.devId keys (IrqShared.requestIrqKey keys f) (IrqShared.freeIrqKey keys) ∧
      (pairs IrqShared.devId keys).Nodup ∧ (pairs IrqShared.devId keys).length = 2 * keys.n) ∧
    (Accounted SharedIrq.devId keys (SharedIrq.register4keys keys f)
        (SharedIrq.unregister4keys keys) ∧
      (pairs SharedIrq.devId keys).Nodup ∧ (pairs SharedIrq.devId keys).length = 2 * keys.n) := by
  have hirq (i j : Nat) : IrqShared.devId i ≠ .key j := DevId.noConfusion
  have hshared (i j : Nat) : SharedIrq.devId i ≠ .key j := DevId.noConfusion
  constructor
  · have hfree (L : Ledger Reg) :
        IrqShared.freeIrqKey keys L = L.releaseAll (pairs IrqShared.devId keys) :=
      List.foldl_flatMap.symm
    have haccounted := request_accounted hirq keys f hfree (List.Perm.refl _)
    exact ⟨haccounted, pairs_distinct keys hirq⟩
  · have hfree (L : Ledger Reg) : SharedIrq.unregister4keys keys L =
        L.releaseAll (teardown (undo SharedIrq.devId keys) keys.n) := by
      rw [SharedIrq.unregister4keys, unwind_eq]
      rfl
    have haccounted := request_accounted hshared keys f hfree (teardown_perm _ _)
    exact ⟨haccounted, pairs_distinct keys hshared⟩

end KernelDrivers.Irq.Shared
