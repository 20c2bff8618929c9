import KernelDrivers.Framework.Machine
import Mathlib.Data.List.Nodup

namespace KernelDrivers.Framework

/-- The calls that a bus makes to its drivers. -/
inductive BusCall (D R : Type*) where
  | probe (d : D) (r : R)
  | remove (d : D) (r : R)

/-- A bus whose devices and drivers come and go: the bindings in the order in which they were
made, and all calls so far. -/
structure Hotplug (D R : Type*) where
  devices : List D
  drivers : List R
  bindings : List (D × R)
  calls : List (BusCall D R)

inductive Plug (D R : Type*) where
  | deviceRegister (d : D)
  | driverRegister (r : R)
  | deviceUnregister (d : D)
  | driverUnregister (r : R)

/-- An event is the last of a schedule that does not come before one that undoes it. -/
def Standing {α : Type*} (on off : α) (acts : List α) : Prop :=
  ∃ past later, acts = past ++ on :: later ∧ off ∉ later

theorem not_standing_nil {α : Type*} (on off : α) : ¬ Standing on off [] := by
  rintro ⟨past, later, h, -⟩
  simp at h

theorem standing_concat {α : Type*} {on off : α} (hne : on ≠ off) (acts : List α) (a : α) :
    Standing on off (acts ++ [a]) ↔ a = on ∨ (a ≠ off ∧ Standing on off acts) := by
  constructor
  · rintro ⟨past, later, h, hoff⟩
    rcases List.eq_nil_or_concat later with rfl | ⟨later, a', rfl⟩
    · exact Or.inl (List.append_singleton_inj.mp h).2
    · rw [List.concat_eq_append, ← List.cons_append, ← List.append_assoc] at h
      obtain ⟨rfl, rfl⟩ := List.append_singleton_inj.mp h
      rw [List.concat_eq_append, List.mem_append, not_or, List.mem_singleton] at hoff
      exact Or.inr ⟨Ne.symm hoff.2, past, later, rfl, hoff.1⟩
  · rintro (rfl | ⟨hoff, past, later, rfl, hlater⟩)
    · exact ⟨acts, [], rfl, List.not_mem_nil⟩
    · refine ⟨past, later ++ [a], by simp, ?_⟩
      rw [List.mem_append, not_or, List.mem_singleton]
      exact ⟨hlater, Ne.symm hoff⟩

namespace Hotplug

variable {D R : Type*} [DecidableEq D]

def start : Hotplug D R := ⟨[], [], [], []⟩

def isBound (b : Hotplug D R) (d : D) : Bool := b.bindings.any fun e => e.1 == d

def bind (b : Hotplug D R) (d : D) (r : R) : Hotplug D R :=
  { b with bindings := b.bindings ++ [(d, r)], calls := b.calls ++ [.probe d r] }

def unbind (b : Hotplug D R) (e : D × R) : Hotplug D R :=
  { b with
    bindings := b.bindings.filter fun e' => e'.1 != e.1
    calls := b.calls ++ [.remove e.1 e.2] }

variable (accepts : D → R → Bool)

/-- A device is offered to a driver. -/
def offer (r : R) (b : Hotplug D R) (d : D) : Hotplug D R :=
  if !b.isBound d && accepts d r then b.bind d r else b

/-- A new device goes to the first driver that accepts it, and a new driver gets the devices that
no other driver has. What is bound to one that leaves is given back, a driver's last device
first, and is not offered again. -/
def step [DecidableEq R] (b : Hotplug D R) : Plug D R → Hotplug D R
  | .deviceRegister d =>
    if d ∈ b.devices then b
    else
      let b := { b with devices := b.devices ++ [d] }
      match b.drivers.find? (accepts d) with
      | none => b
      | some r => b.bind d r
  | .driverRegister r =>
    if r ∈ b.drivers then b
    else b.devices.foldl (offer accepts r) { b with drivers := b.drivers ++ [r] }
  | .deviceUnregister d =>
    let b := (b.bindings.filter fun e => e.1 == d).foldl unbind b
    { b with devices := b.devices.filter (· != d) }
  | .driverUnregister r =>
    let b := (b.bindings.filter fun e => e.2 == r).reverse.foldl unbind b
    { b with drivers := b.drivers.filter (· != r) }

def machine [DecidableEq R] : Machine (Hotplug D R) (Plug D R) := ⟨start, step accepts⟩

/-- Which driver has each device after one more call. -/
def after (owner : D → Option R) : BusCall D R → D → Option R
  | .probe d r => Function.update owner d (some r)
  | .remove d _ => Function.update owner d none

def owner (calls : List (BusCall D R)) : D → Option R := calls.foldl after fun _ => none

/-- A device is probed while no driver has it, and removed by the driver that has it. -/
def Fits (owner : D → Option R) : BusCall D R → Prop
  | .probe d _ => owner d = none
  | .remove d r => owner d = some r

/-- Every call fits those before it. -/
def Paired (calls : List (BusCall D R)) : Prop :=
  ∀ past c, past ++ [c] <+: calls → Fits (owner past) c

theorem owner_concat (calls : List (BusCall D R)) (c : BusCall D R) :
    owner (calls ++ [c]) = after (owner calls) c := by
  simp [owner]

theorem Paired.concat {calls : List (BusCall D R)} (h : Paired calls) {c : BusCall D R}
    (hc : Fits (owner calls) c) : Paired (calls ++ [c]) := by
  intro past c' hpast
  rcases List.prefix_concat_iff.mp hpast with heq | hpast
  · obtain ⟨rfl, rfl⟩ := List.append_singleton_inj.mp heq
    exact hc
  · exact h past c' hpast

/-- Only registered devices are bound, each to one registered driver that accepts it, and the
calls tell which. -/
structure Sound (b : Hotplug D R) : Prop where
  devices : ∀ e ∈ b.bindings, e.1 ∈ b.devices
  drivers : ∀ e ∈ b.bindings, e.2 ∈ b.drivers
  accepted : ∀ e ∈ b.bindings, accepts e.1 e.2
  one : (b.bindings.map Prod.fst).Nodup
  paired : Paired b.calls
  owned : ∀ d r, owner b.calls d = some r ↔ (d, r) ∈ b.bindings

variable {accepts}

theorem isBound_iff {b : Hotplug D R} {d : D} : b.isBound d = true ↔ ∃ r, (d, r) ∈ b.bindings := by
  simp [isBound]

namespace Sound

theorem unique {b : Hotplug D R} (h : Sound accepts b) {d : D} {r r' : R}
    (hr : (d, r) ∈ b.bindings) (hr' : (d, r') ∈ b.bindings) : r = r' := by
  have howner := (h.owned d r).mpr hr
  rw [(h.owned d r').mpr hr'] at howner
  exact (Option.some.inj howner).symm

theorem bind {b : Hotplug D R} (h : Sound accepts b) {d : D} {r : R} (hd : d ∈ b.devices)
    (hr : r ∈ b.drivers) (ha : accepts d r = true) (hfree : ¬ b.isBound d = true) :
    Sound accepts (b.bind d r) := by
  have hnone (r' : R) : (d, r') ∉ b.bindings := fun hr' => hfree (isBound_iff.mpr ⟨r', hr'⟩)
  have hlast {P : D × R → Prop} (hold : ∀ e ∈ b.bindings, P e) (hnew : P (d, r)) :
      ∀ e ∈ (b.bind d r).bindings, P e := by
    intro e he
    rcases List.mem_append.mp he with he | he
    · exact hold e he
    · exact List.mem_singleton.mp he ▸ hnew
  refine ⟨hlast h.devices hd, hlast h.drivers hr, hlast h.accepted ha, ?_, ?_, ?_⟩
  · rw [Hotplug.bind, List.map_append]
    refine List.nodup_append.mpr ⟨h.one, List.nodup_singleton d, ?_⟩
    rintro d' hd' d'' hd'' rfl
    obtain rfl := List.mem_singleton.mp hd''
    obtain ⟨e, he, rfl⟩ := List.mem_map.mp hd'
    exact hnone e.2 he
  · apply h.paired.concat
    rw [Fits, Option.eq_none_iff_forall_ne_some]
    exact fun r' hr' => hnone r' ((h.owned d r').mp hr')
  · intro d' r'
    rw [Hotplug.bind, owner_concat, after, List.mem_append, List.mem_singleton, ← h.owned]
    by_cases hd' : d' = d
    · subst hd'
      have hno : owner b.calls d' ≠ some r' := fun hr' => hnone r' ((h.owned d' r').mp hr')
      rw [Function.update_self]
      simp [hno, eq_comm]
    · rw [Function.update_of_ne hd']
      simp [hd']

theorem unbind {b : Hotplug D R} (h : Sound accepts b) {e : D × R} (he : e ∈ b.bindings) :
    Sound accepts (b.unbind e) := by
  have hsub : ∀ e' ∈ (b.unbind e).bindings, e' ∈ b.bindings :=
    fun e' he' => (List.mem_filter.mp he').1
  refine ⟨fun e' he' => h.devices e' (hsub e' he'), fun e' he' => h.drivers e' (hsub e' he'),
    fun e' he' => h.accepted e' (hsub e' he'), ?_, ?_, ?_⟩
  · exact h.one.sublist ((List.filter_sublist).map Prod.fst)
  · exact h.paired.concat ((h.owned e.1 e.2).mpr he)
  · intro d r
    rw [Hotplug.unbind, owner_concat, after, List.mem_filter, ← h.owned]
    by_cases hd : d = e.1
    · subst hd
      simp
    · rw [Function.update_of_ne hd]
      simp [hd]

end Sound

/-- Some bindings of different devices are given back. -/
theorem unbindAll_spec {b : Hotplug D R} (h : Sound accepts b) (es : List (D × R))
    (hes : ∀ e ∈ es, e ∈ b.bindings) (hnodup : (es.map Prod.fst).Nodup) :
    Sound accepts (es.foldl unbind b) ∧ (es.foldl unbind b).devices = b.devices ∧
      (es.foldl unbind b).drivers = b.drivers ∧
      ∀ e, e ∈ (es.foldl unbind b).bindings ↔ e ∈ b.bindings ∧ e.1 ∉ es.map Prod.fst := by
  induction es generalizing b with
  | nil => exact ⟨h, rfl, rfl, fun e => by simp⟩
  | cons e es ih =>
    obtain ⟨hfresh, hrest⟩ := List.nodup_cons.mp hnodup
    have hkept : ∀ e' ∈ es, e' ∈ (b.unbind e).bindings := by
      intro e' he'
      have hne : e'.1 ≠ e.1 := fun heq => hfresh (heq ▸ List.mem_map_of_mem he')
      exact List.mem_filter.mpr ⟨hes e' (List.mem_cons_of_mem _ he'), bne_iff_ne.mpr hne⟩
    obtain ⟨hsound, hdev, hdrv, hmem⟩ := ih (h.unbind (hes e List.mem_cons_self)) hkept hrest
    refine ⟨hsound, hdev, hdrv, fun e' => ?_⟩
    rw [List.foldl_cons, hmem, unbind, List.mem_filter, bne_iff_ne, List.map_cons, List.mem_cons,
      not_or, and_assoc]

theorem offerAll_spec {r : R} {b : Hotplug D R} (h : Sound accepts b) (hr : r ∈ b.drivers)
    (ds : List D) (hds : ∀ d ∈ ds, d ∈ b.devices) :
    Sound accepts (ds.foldl (offer accepts r) b) ∧
      (ds.foldl (offer accepts r) b).devices = b.devices ∧
      (ds.foldl (offer accepts r) b).drivers = b.drivers ∧
      (∀ e ∈ b.bindings, e ∈ (ds.foldl (offer accepts r) b).bindings) ∧
      ∀ d ∈ ds, accepts d r = true → ∃ r', (d, r') ∈ (ds.foldl (offer accepts r) b).bindings := by
  induction ds generalizing b with
  | nil => exact ⟨h, rfl, rfl, fun e he => he, nofun⟩
  | cons d ds ih =>
    have hd := hds d List.mem_cons_self
    have hrest : ∀ d' ∈ ds, d' ∈ b.devices := fun d' hd' => hds d' (List.mem_cons_of_mem _ hd')
    rw [List.foldl_cons]
    by_cases hoffer : (!b.isBound d && accepts d r) = true
    · rw [Bool.and_eq_true, Bool.not_eq_true', ← Bool.not_eq_true] at hoffer
      have hstep : offer accepts r b d = b.bind d r := if_pos (by simpa using hoffer)
      rw [hstep]
      obtain ⟨hsound, hdev, hdrv, hold, hbound⟩ :=
        ih (h.bind hd hr hoffer.2 hoffer.1) hr hrest
      refine ⟨hsound, hdev, hdrv, fun e he => hold e (List.mem_append_left _ he), ?_⟩
      intro d' hd' ha
      rcases List.mem_cons.mp hd' with rfl | hd'
      · exact ⟨r, hold _ (List.mem_append_right _ (List.mem_singleton_self _))⟩
      · exact hbound d' hd' ha
    · have hstep : offer accepts r b d = b := if_neg hoffer
      rw [hstep]
      obtain ⟨hsound, hdev, hdrv, hold, hbound⟩ := ih h hr hrest
      refine ⟨hsound, hdev, hdrv, hold, ?_⟩
      intro d' hd' ha
      rcases List.mem_cons.mp hd' with rfl | hd'
      · -- it has been bound before
        have hb : b.isBound d' = true := by
          by_contra hfree
          exact hoffer (by simp [hfree, ha])
        obtain ⟨r', hr'⟩ := isBound_iff.mp hb
        exact ⟨r', hold _ hr'⟩
      · exact hbound d' hd' ha

/-- What is bound to `d`, and what is bound to `r`, as a list to give back. -/
theorem ofDevice_spec {b : Hotplug D R} (h : Sound accepts b) (d : D) :
    (∀ e ∈ b.bindings.filter (fun e => e.1 == d), e ∈ b.bindings) ∧
      ((b.bindings.filter fun e => e.1 == d).map Prod.fst).Nodup ∧
      ∀ d', d' ∈ (b.bindings.filter fun e => e.1 == d).map Prod.fst ↔
        d' = d ∧ ∃ r, (d', r) ∈ b.bindings := by
  refine ⟨fun e he => (List.mem_filter.mp he).1, h.one.sublist (List.filter_sublist.map _), ?_⟩
  intro d'
  simp only [List.mem_map, List.mem_filter, beq_iff_eq]
  constructor
  · rintro ⟨⟨d'', r⟩, ⟨hmem, rfl⟩, rfl⟩
    exact ⟨rfl, r, hmem⟩
  · rintro ⟨rfl, r, hmem⟩
    exact ⟨(d', r), ⟨hmem, rfl⟩, rfl⟩

/-- The lists of a sound bus may grow. -/
theorem Sound.grow {b : Hotplug D R} (h : Sound accepts b) {devices : List D} {drivers : List R}
    (hdev : ∀ d ∈ b.devices, d ∈ devices) (hdrv : ∀ r ∈ b.drivers, r ∈ drivers) :
    Sound accepts { b with devices, drivers } :=
  ⟨fun e he => hdev _ (h.devices e he), fun e he => hdrv _ (h.drivers e he), h.accepted, h.one,
    h.paired, h.owned⟩

theorem start_sound : Sound accepts (start : Hotplug D R) where
  devices := nofun
  drivers := nofun
  accepted := nofun
  one := List.nodup_nil
  paired past c hpast := by simp [start] at hpast
  owned d r := by simp [owner, start]

variable [DecidableEq R]

theorem ofDriver_spec {b : Hotplug D R} (h : Sound accepts b) (r : R) :
    (∀ e ∈ (b.bindings.filter fun e => e.2 == r).reverse, e ∈ b.bindings) ∧
      ((b.bindings.filter fun e => e.2 == r).reverse.map Prod.fst).Nodup ∧
      ∀ d, d ∈ (b.bindings.filter fun e => e.2 == r).reverse.map Prod.fst ↔
        (d, r) ∈ b.bindings := by
  refine ⟨fun e he => (List.mem_filter.mp (List.mem_reverse.mp he)).1, ?_, ?_⟩
  · rw [List.map_reverse, List.nodup_reverse]
    exact h.one.sublist (List.filter_sublist.map _)
  · intro d
    simp only [List.mem_map, List.mem_reverse, List.mem_filter, beq_iff_eq]
    constructor
    · rintro ⟨⟨d', r'⟩, ⟨hmem, rfl⟩, rfl⟩
      exact hmem
    · exact fun hmem => ⟨(d, r), ⟨hmem, rfl⟩, rfl⟩

/-- What one event does to the bindings, whatever order the calls come in. -/
inductive Stepped (accepts : D → R → Bool) (b b' : Hotplug D R) : Plug D R → Prop where
  | deviceRegister (d : D) (devices : ∀ d', d' ∈ b'.devices ↔ d' ∈ b.devices ∨ d' = d)
      (drivers : ∀ r, r ∈ b'.drivers ↔ r ∈ b.drivers) (kept : ∀ e ∈ b.bindings, e ∈ b'.bindings)
      (offered : d ∉ b.devices → ∀ r ∈ b.drivers, accepts d r = true →
        ∃ r', (d, r') ∈ b'.bindings) :
      Stepped accepts b b' (.deviceRegister d)
  | driverRegister (r : R) (devices : ∀ d, d ∈ b'.devices ↔ d ∈ b.devices)
      (drivers : ∀ r', r' ∈ b'.drivers ↔ r' ∈ b.drivers ∨ r' = r)
      (kept : ∀ e ∈ b.bindings, e ∈ b'.bindings)
      (offered : r ∉ b.drivers → ∀ d ∈ b.devices, accepts d r = true →
        ∃ r', (d, r') ∈ b'.bindings) :
      Stepped accepts b b' (.driverRegister r)
  | deviceUnregister (d : D) (devices : ∀ d', d' ∈ b'.devices ↔ d' ∈ b.devices ∧ d' ≠ d)
      (drivers : ∀ r, r ∈ b'.drivers ↔ r ∈ b.drivers)
      (left : ∀ e, e ∈ b'.bindings ↔ e ∈ b.bindings ∧ e.1 ≠ d) :
      Stepped accepts b b' (.deviceUnregister d)
  | driverUnregister (r : R) (devices : ∀ d, d ∈ b'.devices ↔ d ∈ b.devices)
      (drivers : ∀ r', r' ∈ b'.drivers ↔ r' ∈ b.drivers ∧ r' ≠ r)
      (left : ∀ e, e ∈ b'.bindings ↔ e ∈ b.bindings ∧ e.2 ≠ r) :
      Stepped accepts b b' (.driverUnregister r)

theorem step_spec {b : Hotplug D R} (h : Sound accepts b) (a : Plug D R) :
    Sound accepts (step accepts b a) ∧ Stepped accepts b (step accepts b a) a := by
  cases a with
  | deviceRegister d =>
    by_cases hd : d ∈ b.devices
    · rw [step, if_pos hd]
      refine ⟨h, .deviceRegister d (fun d' => ?_) (fun _ => Iff.rfl) (fun _ he => he) ?_⟩
      · exact (or_iff_left_of_imp fun heq => heq ▸ hd).symm
      · exact fun hno => absurd hd hno
    · have hgrow : Sound accepts { b with devices := b.devices ++ [d] } :=
        h.grow (fun _ => List.mem_append_left _) (fun _ hr => hr)
      have hmem (d' : D) : d' ∈ b.devices ++ [d] ↔ d' ∈ b.devices ∨ d' = d := by simp
      simp only [step, if_neg hd]
      cases hfind : b.drivers.find? (accepts d) with
      | none =>
        refine ⟨hgrow, .deviceRegister d hmem (fun _ => Iff.rfl) (fun _ he => he) ?_⟩
        intro _ r hr ha
        exact absurd ha (List.find?_eq_none.mp hfind r hr)
      | some r =>
        have hfree : ¬ isBound { b with devices := b.devices ++ [d] } d = true := by
          intro hb
          obtain ⟨r', hr'⟩ := isBound_iff.mp hb
          exact hd (h.devices _ hr')
        refine ⟨hgrow.bind ?_ (List.mem_of_find?_eq_some hfind) (List.find?_some hfind) hfree,
          .deviceRegister d hmem (fun _ => Iff.rfl) ?_ ?_⟩
        · exact List.mem_append_right _ (List.mem_singleton_self d)
        · exact fun e he => List.mem_append_left _ he
        · exact fun _ _ _ _ => ⟨r, List.mem_append_right _ (List.mem_singleton_self _)⟩
  | driverRegister r =>
    by_cases hr : r ∈ b.drivers
    · rw [step, if_pos hr]
      refine ⟨h, .driverRegister r (fun _ => Iff.rfl) (fun r' => ?_) (fun _ he => he) ?_⟩
      · exact (or_iff_left_of_imp fun heq => heq ▸ hr).symm
      · exact fun hno => absurd hr hno
    · have hgrow : Sound accepts { b with drivers := b.drivers ++ [r] } :=
        h.grow (fun _ hd => hd) (fun _ => List.mem_append_left _)
      rw [step, if_neg hr]
      obtain ⟨hsound, hdev, hdrv, hkept, hoffered⟩ := offerAll_spec hgrow
        (List.mem_append_right _ (List.mem_singleton_self r)) b.devices (fun _ hd => hd)
      refine ⟨hsound, .driverRegister r (fun d => ?_) (fun r' => ?_) hkept (fun _ => hoffered)⟩
      · rw [hdev]
      · rw [hdrv]
        simp
  | deviceUnregister d =>
    obtain ⟨hsub, hnodup, hmem⟩ := ofDevice_spec h d
    obtain ⟨hsound, hdev, hdrv, hleft⟩ := unbindAll_spec h _ hsub hnodup
    have hiff (e : D × R) : e ∈ ((b.bindings.filter fun e => e.1 == d).foldl unbind b).bindings ↔
        e ∈ b.bindings ∧ e.1 ≠ d := by
      rw [hleft, hmem]
      exact and_congr_right fun he => not_congr (and_iff_left ⟨e.2, he⟩)
    refine ⟨⟨?_, hsound.drivers, hsound.accepted, hsound.one, hsound.paired, hsound.owned⟩,
      .deviceUnregister d (fun d' => ?_) (fun r => ?_) hiff⟩
    · intro e he
      exact List.mem_filter.mpr ⟨hsound.devices e he, bne_iff_ne.mpr ((hiff e).mp he).2⟩
    · rw [step, List.mem_filter, hdev, bne_iff_ne]
    · rw [step, hdrv]
  | driverUnregister r =>
    obtain ⟨hsub, hnodup, hmem⟩ := ofDriver_spec h r
    obtain ⟨hsound, hdev, hdrv, hleft⟩ := unbindAll_spec h _ hsub hnodup
    have hiff (e : D × R) :
        e ∈ ((b.bindings.filter fun e => e.2 == r).reverse.foldl unbind b).bindings ↔
          e ∈ b.bindings ∧ e.2 ≠ r := by
      rw [hleft, hmem]
      refine and_congr_right fun he => not_congr ⟨fun hr => h.unique he hr, ?_⟩
      rintro rfl
      exact he
    refine ⟨⟨hsound.devices, ?_, hsound.accepted, hsound.one, hsound.paired, hsound.owned⟩,
      .driverUnregister r (fun d => ?_) (fun r' => ?_) hiff⟩
    · intro e he
      exact List.mem_filter.mpr ⟨hsound.drivers e he, bne_iff_ne.mpr ((hiff e).mp he).2⟩
    · rw [step, hdev]
    · rw [step, List.mem_filter, hdrv, bne_iff_ne]

variable (accepts) in
theorem run_sound (acts : List (Plug D R)) : Sound accepts ((machine accepts).run acts) :=
  (machine accepts).run_invariant start_sound (fun _ a h => (step_spec h a).1) acts

/-- A device is there when it has been registered and not unregistered since. -/
theorem run_devices (acts : List (Plug D R)) (d : D) :
    d ∈ ((machine accepts).run acts).devices ↔
      Standing (.deviceRegister d) (.deviceUnregister d) acts := by
  induction acts using List.reverseRecOn with
  | nil => exact iff_of_false List.not_mem_nil (not_standing_nil _ _)
  | append_singleton acts a ih =>
    have hne : (.deviceRegister d : Plug D R) ≠ .deviceUnregister d := nofun
    rw [Machine.run_concat, standing_concat hne, ← ih]
    have hstep := (step_spec (run_sound accepts acts) a).2
    have hmem : d ∈ (step accepts ((machine accepts).run acts) a).devices ↔
        a = .deviceRegister d ∨
          a ≠ .deviceUnregister d ∧ d ∈ ((machine accepts).run acts).devices := by
      cases hstep with
      | deviceRegister d' hdev => simp [hdev, or_comm, eq_comm]
      | driverRegister r hdev => simp [hdev]
      | deviceUnregister d' hdev => simp [hdev, and_comm, eq_comm]
      | driverUnregister r hdev => simp [hdev]
    exact hmem

theorem run_drivers (acts : List (Plug D R)) (r : R) :
    r ∈ ((machine accepts).run acts).drivers ↔
      Standing (.driverRegister r) (.driverUnregister r) acts := by
  induction acts using List.reverseRecOn with
  | nil => exact iff_of_false List.not_mem_nil (not_standing_nil _ _)
  | append_singleton acts a ih =>
    have hne : (.driverRegister r : Plug D R) ≠ .driverUnregister r := nofun
    rw [Machine.run_concat, standing_concat hne, ← ih]
    have hstep := (step_spec (run_sound accepts acts) a).2
    have hmem : r ∈ (step accepts ((machine accepts).run acts) a).drivers ↔
        a = .driverRegister r ∨
          a ≠ .driverUnregister r ∧ r ∈ ((machine accepts).run acts).drivers := by
      cases hstep with
      | deviceRegister d hdev hdrv => simp [hdrv]
      | driverRegister r' hdev hdrv => simp [hdrv, or_comm, eq_comm]
      | deviceUnregister d hdev hdrv => simp [hdrv]
      | driverUnregister r' hdev hdrv => simp [hdrv, and_comm, eq_comm]
    exact hmem

variable (accepts) in
/-- No two drivers of a schedule accept the same device. -/
def Exclusive (acts : List (Plug D R)) : Prop :=
  ∀ d r r', .driverRegister r ∈ acts → .driverRegister r' ∈ acts → accepts d r → accepts d r' →
    r = r'

variable (accepts) in
/-- The drivers of the bus are of the schedule, and a device that some driver of the bus accepts is
bound to it. -/
structure Complete (acts : List (Plug D R)) (b : Hotplug D R) : Prop where
  listed : ∀ r ∈ b.drivers, .driverRegister r ∈ acts
  bound : ∀ d ∈ b.devices, ∀ r ∈ b.drivers, accepts d r → (d, r) ∈ b.bindings

theorem Stepped.complete {acts : List (Plug D R)} {a : Plug D R} {b b' : Hotplug D R}
    (hstep : Stepped accepts b b' a) (hsound : Sound accepts b')
    (hone : Exclusive accepts (acts ++ [a])) (h : Complete accepts acts b) :
    Complete accepts (acts ++ [a]) b' := by
  have hold {r : R} (hr : r ∈ b.drivers) : .driverRegister r ∈ acts ++ [a] :=
    List.mem_append_left _ (h.listed r hr)
  -- a driver that has a device that another one accepts is that other one
  have hpick {d : D} {r : R} (hlisted : ∀ r' ∈ b'.drivers, .driverRegister r' ∈ acts ++ [a])
      (hr : r ∈ b'.drivers) (ha : accepts d r = true) (hex : ∃ r', (d, r') ∈ b'.bindings) :
      (d, r) ∈ b'.bindings := by
    obtain ⟨r', hmem⟩ := hex
    have hr' : r' ∈ b'.drivers := hsound.drivers _ hmem
    have heq := hone d r r' (hlisted r hr) (hlisted r' hr') ha (hsound.accepted _ hmem)
    rwa [heq]
  cases hstep with
  | deviceRegister d hdev hdrv hkept hoffered =>
    have hlisted (r : R) (hr : r ∈ b'.drivers) : .driverRegister r ∈ acts ++ [.deviceRegister d] :=
      hold ((hdrv r).mp hr)
    refine ⟨hlisted, fun d' hd' r hr ha => ?_⟩
    by_cases hin : d' ∈ b.devices
    · exact hkept _ (h.bound d' hin r ((hdrv r).mp hr) ha)
    · obtain rfl := ((hdev d').mp hd').resolve_left hin
      exact hpick hlisted hr ha (hoffered hin r ((hdrv r).mp hr) ha)
  | driverRegister r hdev hdrv hkept hoffered =>
    have hlisted (r' : R) (hr' : r' ∈ b'.drivers) :
        .driverRegister r' ∈ acts ++ [.driverRegister r] := by
      rcases (hdrv r').mp hr' with hr' | rfl
      · exact hold hr'
      · exact List.mem_append_right _ (List.mem_singleton_self _)
    refine ⟨hlisted, fun d hd r' hr' ha => ?_⟩
    by_cases hin : r' ∈ b.drivers
    · exact hkept _ (h.bound d ((hdev d).mp hd) r' hin ha)
    · obtain rfl := ((hdrv r').mp hr').resolve_left hin
      exact hpick hlisted hr' ha (hoffered hin d ((hdev d).mp hd) ha)
  | deviceUnregister d hdev hdrv hleft =>
    refine ⟨fun r hr => hold ((hdrv r).mp hr), fun d' hd' r hr ha => ?_⟩
    obtain ⟨hin, hne⟩ := (hdev d').mp hd'
    exact (hleft _).mpr ⟨h.bound d' hin r ((hdrv r).mp hr) ha, hne⟩
  | driverUnregister r hdev hdrv hleft =>
    refine ⟨fun r' hr' => hold ((hdrv r').mp hr').1, fun d hd r' hr' ha => ?_⟩
    obtain ⟨hin, hne⟩ := (hdrv r').mp hr'
    exact (hleft _).mpr ⟨h.bound d ((hdev d).mp hd) r' hin ha, hne⟩

omit [DecidableEq D] [DecidableEq R] in
theorem Exclusive.of_append {acts more : List (Plug D R)}
    (h : Exclusive accepts (acts ++ more)) : Exclusive accepts acts :=
  fun d r r' hr hr' => h d r r' (List.mem_append_left _ hr) (List.mem_append_left _ hr')

theorem run_complete {acts : List (Plug D R)} (h : Exclusive accepts acts) :
    Complete accepts acts ((machine accepts).run acts) := by
  have hrun := (machine accepts).run_induction
    (I := fun acts b => Exclusive accepts acts → Complete accepts acts b)
    (fun _ => ⟨nofun, nofun⟩)
    (fun acts a ih hone =>
      have hstep := step_spec (run_sound accepts acts) a
      hstep.2.complete hstep.1 hone (ih hone.of_append)) acts
  exact hrun h

/-- The bindings of a schedule whose drivers share no device. -/
theorem run_bindings {acts : List (Plug D R)} (h : Exclusive accepts acts) (d : D) (r : R) :
    (d, r) ∈ ((machine accepts).run acts).bindings ↔
      d ∈ ((machine accepts).run acts).devices ∧ r ∈ ((machine accepts).run acts).drivers ∧
        accepts d r := by
  have hsound := run_sound accepts acts
  constructor
  · intro hmem
    exact ⟨hsound.devices _ hmem, hsound.drivers _ hmem, hsound.accepted _ hmem⟩
  · rintro ⟨hd, hr, ha⟩
    exact (run_complete h).bound d hd r hr ha

end Hotplug

end KernelDrivers.Framework
